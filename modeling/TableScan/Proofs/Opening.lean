import TableScan.Proofs.Listings
import TableScan.Proofs.Percent

/-!
What a file system in memory holds after requests, and what of it a listing leads to. Files are
listed under their stored paths. Opening encodes a path, so that a stored path leads back to its
file unless a percent sign stands in it: then it leads to where that sign is encoded once more.
-/

namespace TableScan

namespace Storage

open TableScan.Path Text.Percent

variable {s : Storage} {path location : String} {f : FileImage}

theorem isStorable_lt {c : Char} (h : isStorable c = true) : c.toNat < 128 := by
  simp only [isStorable, Bool.and_eq_true, decide_eq_true_iff] at h
  omega

theorem isStorable_of_mem_encodePart {part : String} {c : Char} (h : c ∈ (encodePart part).toList)
    (hc : c ≠ '%') :
    isStorable c = true := by
  have hstorable {s : String} (hs : (s.toList.all fun c => c = '%' || isStorable c) = true)
      (hmem : c ∈ s.toList) :
      isStorable c = true := by
    simpa [hc] using List.all_eq_true.1 hs c hmem
  unfold encodePart at h
  split at h
  · exact hstorable (by decide) h
  · split at h
    · exact hstorable (by decide) h
    · obtain ⟨x, -, hx⟩ := mem_encode_iff.1 h
      unfold encodeChar at hx
      split at hx
      · rename_i hplain
        rw [List.mem_singleton.1 hx]
        exact hplain.2
      · obtain ⟨b, -, hb⟩ := List.mem_flatMap.1 hx
        exact hstorable (by decide) (mem_escape hb)

theorem encodePart_ne_dots (part : String) : encodePart part ≠ "." ∧ encodePart part ≠ ".." := by
  have hplain {s : String} (hs : encode isStorable s = s) : encode isStorable part = s →
      part = s := by
    intro h
    have hback := decode?_encode (show isStorable '%' = false by decide) part
    rw [h, ← hs, decode?_encode (by decide)] at hback
    exact (Option.some.inj hback).symm
  unfold encodePart
  split
  · exact ⟨by decide, by decide⟩
  · rename_i hdot
    split
    · exact ⟨by decide, by decide⟩
    · rename_i hdots
      exact ⟨fun h => hdot (hplain (encode_of_all (by decide)) h),
        fun h => hdots (hplain (encode_of_all (by decide)) h)⟩

theorem encodePart_encodePart_iff (part : String) :
    encodePart (encodePart part) = encodePart part ↔ '%' ∉ (encodePart part).toList := by
  obtain ⟨hdot, hdots⟩ := encodePart_ne_dots part
  rw [show encodePart (encodePart part) = encode isStorable (encodePart part) by
    rw [encodePart, if_neg hdot, if_neg hdots], encode_eq_self_iff]
  constructor
  · intro h hmem
    exact absurd (h '%' hmem).2 (by decide)
  · intro h c hc
    have hstorable := isStorable_of_mem_encodePart hc fun heq => h (heq ▸ hc)
    exact ⟨isStorable_lt hstorable, hstorable⟩

theorem locate_locate_iff (path : String) :
    locate (locate path) = locate path ↔ '%' ∉ (locate path).toList := by
  have hchars : '%' ∉ (locate path).toList ↔
      ∀ part ∈ parts path, '%' ∉ (encodePart part).toList := by
    rw [mem_iff_mem_parts (by decide), parts_locate]
    simp
  rw [hchars]
  constructor
  · intro h part hpart
    have hparts := congrArg parts h
    rw [parts_locate, parts_locate, List.map_map] at hparts
    exact (encodePart_encodePart_iff part).1 (List.map_inj_left.1 hparts part hpart)
  · intro h
    refine (isNormal_locate _).ext (isNormal_locate _) ?_
    rw [parts_locate, parts_locate, List.map_map]
    exact List.map_congr_left fun part hpart => (encodePart_encodePart_iff part).2 (h part hpart)

theorem lookup_filter_ne (files : List (String × FileImage)) (location other : String) :
    (files.filter (·.1 ≠ location)).lookup other = if location = other then none
      else files.lookup other := by
  induction files with
  | nil => simp
  | cons file files ih =>
    obtain ⟨path, f⟩ := file
    by_cases hpath : path = location
    · subst hpath
      rw [List.filter_cons_of_neg (by simp), ih, List.lookup_cons]
      split
      · rfl
      · rename_i hother
        rw [beq_eq_false_iff_ne.2 (Ne.symm hother)]
    · rw [List.filter_cons_of_pos (by simpa using hpath), List.lookup_cons, List.lookup_cons, ih]
      by_cases hother : other = path
      · simp only [beq_iff_eq.2 hother]
        exact (if_neg fun h => hpath (hother.symm.trans h.symm)).symm
      · simp only [beq_eq_false_iff_ne.2 hother]

theorem find?_insert (s : Storage) (location : String) (f : FileImage) (other : String) :
    (s.insert location f).find? other = if location = other then some f else s.find? other := by
  rw [find?, insert, List.lookup_cons, lookup_filter_ne]
  by_cases h : location = other
  · simp only [beq_iff_eq.2 h.symm, if_pos h]
  · simp only [beq_eq_false_iff_ne.2 (Ne.symm h), if_neg h]
    rfl

theorem find?_of_mem (hs : s.IsKept) (h : (path, f) ∈ s.files) : s.find? path = some f := by
  have hnodup := hs.distinct
  rw [find?]
  generalize s.files = files at h hnodup
  induction files with
  | nil => cases h
  | cons file files ih =>
    obtain ⟨path', f'⟩ := file
    obtain ⟨hfresh, hnodup⟩ := List.nodup_cons.1 hnodup
    rw [List.lookup_cons]
    rcases List.mem_cons.1 h with heq | hmem
    · cases heq
      simp only [beq_self_eq_true]
    · have hne : path ≠ path' := fun heq => hfresh (List.mem_map.2 ⟨(path, f), hmem, heq⟩)
      simp only [beq_eq_false_iff_ne.2 hne]
      exact ih hmem hnodup

theorem mem_list_iff {root : String} {files : List FileInfo} (hs : s.IsKept)
    (h : s.list root = .ok files) {info : FileInfo} : info ∈ files ↔
      ∃ f, s.find? info.path = some f ∧ info.size = f.size ∧
        isBelow (locate root) info.path = true := by
  simp only [Storage.list] at h
  split at h
  · cases h
  · cases h
    rw [List.mem_mergeSort, List.mem_map]
    constructor
    · rintro ⟨⟨path, f⟩, hfile, rfl⟩
      obtain ⟨hmem, hbelow⟩ := List.mem_filter.1 hfile
      exact ⟨f, find?_of_mem hs hmem, rfl, hbelow⟩
    · rintro ⟨f, hf, hsize, hbelow⟩
      have hmem : (info.path, f) ∈ s.files := mem_of_lookup hf
      exact ⟨(info.path, f), List.mem_filter.2 ⟨hmem, hbelow⟩, by rw [← hsize]⟩

end Storage

namespace FileSystem

open Storage

variable {fs : FileSystem}

def Request.effect (location : String) (before : Option FileImage) : Request → Option FileImage
  | .put path f => if locate path = location then some f else before
  | .delete path => if locate path = location then none else before
  | .list _ | .openFile _ | .read _ _ _ => before

def held (requests : List Request) (location : String) : Option FileImage :=
  requests.foldl (Request.effect location) none

def inMemory (requests : List Request) : FileSystem :=
  requests.foldl after (ofStorage (.empty .memory))

theorem put_memory (h : fs.storage.backend = .memory) (path : String) (f : FileImage) :
    fs.put path f = (.ok (), { fs with storage := fs.storage.insert (locate path) f }) := by
  simp [put, Storage.put, isBlocked, isDirectory, h]

theorem delete_memory (h : fs.storage.backend = .memory) (path : String) : fs.delete path =
    (.ok (), { fs with storage :=
      { fs.storage with files := fs.storage.files.filter (·.1 ≠ locate path) } }) := by
  simp [delete, Storage.delete, isBlocked, isDirectory, h]

theorem list_memory (h : fs.storage.backend = .memory) (root : String) :
    ∃ files, (fs.list root).1 = .ok files ∧ fs.storage.list root = .ok files := by
  simp [list, Storage.list, isBlocked, h, answer]

theorem result_answer {α : Type} (done : α → Traffic) (r : Except StorageError α) :
    (fs.answer done r).1 = r := by
  cases r <;> rfl

theorem storage_read (fs : FileSystem) (h : Handle) (start stop : Nat) :
    (fs.read h start stop).2.storage = fs.storage := by
  unfold read
  split
  · rfl
  · exact storage_answer _ _

theorem backend_after (h : fs.storage.backend = .memory) (request : Request) :
    (fs.after request).storage.backend = .memory := by
  cases request with
  | put path f => rwa [after, put_memory h]
  | delete path => rwa [after, delete_memory h]
  | list root => rwa [after, list, storage_answer]
  | openFile path => rwa [after, openFile, storage_answer]
  | read handle start stop => rwa [after, storage_read]

theorem find?_after (h : fs.storage.backend = .memory) (request : Request) (location : String) :
    (fs.after request).storage.find? location =
      request.effect location (fs.storage.find? location) := by
  cases request with
  | put path f =>
    rw [after, put_memory h]
    exact find?_insert fs.storage (locate path) f location
  | delete path =>
    rw [after, delete_memory h]
    exact lookup_filter_ne fs.storage.files (locate path) location
  | list root => rw [after, list, storage_answer, Request.effect]
  | openFile path => rw [after, openFile, storage_answer, Request.effect]
  | read handle start stop => rw [after, storage_read, Request.effect]

theorem find?_foldl_after (h : fs.storage.backend = .memory) (requests : List Request)
    (location : String) :
    (requests.foldl after fs).storage.backend = .memory ∧
    (requests.foldl after fs).storage.find? location =
      requests.foldl (Request.effect location) (fs.storage.find? location) := by
  induction requests generalizing fs with
  | nil => exact ⟨h, rfl⟩
  | cons request requests ih =>
    rw [List.foldl_cons, List.foldl_cons, ← find?_after h]
    exact ih (backend_after h request)

theorem backend_inMemory (requests : List Request) :
    (inMemory requests).storage.backend = .memory :=
  (find?_foldl_after rfl requests "").1

theorem find?_inMemory (requests : List Request) (location : String) :
    (inMemory requests).storage.find? location = held requests location :=
  (find?_foldl_after rfl requests location).2

theorem effect_eq_some {request : Request} {location : String} {before : Option FileImage}
    {f : FileImage} (h : request.effect location before = some f) :
    before = some f ∨ ∃ path, locate path = location := by
  cases request with
  | put path g =>
    simp only [Request.effect] at h
    split at h
    · rename_i hpath
      exact .inr ⟨path, hpath⟩
    · exact .inl h
  | delete path =>
    simp only [Request.effect] at h
    split at h
    · cases h
    · exact .inl h
  | list | openFile | read => exact .inl h

theorem exists_locate_of_held {requests : List Request} {location : String} {f : FileImage}
    (h : held requests location = some f) : ∃ path, locate path = location := by
  have run (requests : List Request) (before : Option FileImage)
      (h : requests.foldl (Request.effect location) before = some f) :
      before = some f ∨ ∃ path, locate path = location := by
    induction requests generalizing before with
    | nil => exact .inl h
    | cons request requests ih =>
      rcases ih _ h with heffect | hpath
      · exact effect_eq_some heffect
      · exact .inr hpath
  rcases run requests none h with hnone | hpath
  · cases hnone
  · exact hpath

/-- Whether a path opens as a file: with a handle of its size, by which all of it is read. -/
def Opens (fs : FileSystem) (path : String) (f : FileImage) : Prop :=
  ∃ h, (fs.openFile path).1 = .ok h ∧ h.size = f.size ∧
    ((fs.openFile path).2.read h 0 h.size).1 = .ok f.bytes

theorem openFile_eq (h : fs.storage.backend = .memory) (path : String) : (fs.openFile path).1 =
    match fs.storage.find? (locate path) with
    | some f => .ok ⟨path, locate path, f.size⟩
    | none => .error (missing path) := by
  simp only [openFile, Storage.openFile, isBlocked, h, answer]
  cases fs.storage.find? (locate path) <;> rfl

theorem opens_of_find? (h : fs.storage.backend = .memory) {path : String} {f : FileImage}
    (hf : fs.storage.find? (locate path) = some f) : fs.Opens path f := by
  have hopen := openFile_eq h path
  rw [hf] at hopen
  refine ⟨_, hopen, rfl, ?_⟩
  have hstorage : (fs.openFile path).2.storage = fs.storage := by rw [openFile, storage_answer]
  generalize (fs.openFile path).2 = opened at hstorage
  have hread : (opened.read ⟨path, locate path, f.size⟩ 0 f.size).1 =
      Handle.read ⟨path, locate path, f.size⟩ fs.storage 0 f.size := by
    rw [← hstorage]
    unfold read
    split
    · rfl
    · exact result_answer _ _
  have hadmits : Handle.admits ⟨path, locate path, f.size⟩ 0 f.size = true := by
    simp [Handle.admits]
  simp only [hread, Handle.read, hadmits, hf, Bool.not_true, Bool.false_eq_true, ↓reduceIte]
  split
  · rename_i hempty
    exact congrArg Except.ok (List.eq_nil_of_length_eq_zero hempty.symm).symm
  · rename_i hempty
    rw [if_neg (by omega), List.drop_zero, Nat.sub_zero]
    exact congrArg Except.ok (List.take_of_length_le le_rfl)

/-- Every listed file is held, with the size that is listed, and its path opens as it where no
percent sign stands in the path. Otherwise the path leads elsewhere: to the file under the path
encoded once more, if there is one. -/
theorem opens_listed (requests : List Request) (root : String) :
    ∃ files, ((inMemory requests).list root).1 = .ok files ∧ ∀ info ∈ files,
      ∃ f, held requests info.path = some f ∧ info.size = f.size ∧
        if '%' ∉ info.path.toList then ((inMemory requests).list root).2.Opens info.path f
        else locate info.path ≠ info.path ∧
          match held requests (locate info.path) with
          | some g => ((inMemory requests).list root).2.Opens info.path g
          | none => (((inMemory requests).list root).2.openFile info.path).1 =
              .error (missing info.path) := by
  have hmemory := backend_inMemory requests
  have hkept : (inMemory requests).storage.IsKept :=
    isKept_foldl_after (isKept_empty .memory) requests
  obtain ⟨files, hfiles, hlist⟩ := list_memory hmemory root
  refine ⟨files, hfiles, fun info hinfo => ?_⟩
  obtain ⟨f, hf, hsize, -⟩ := (mem_list_iff hkept hlist).1 hinfo
  rw [find?_inMemory] at hf
  obtain ⟨path, hpath⟩ := exists_locate_of_held hf
  have hlocate : locate info.path = info.path ↔ '%' ∉ info.path.toList :=
    hpath ▸ locate_locate_iff path
  -- listing leaves the files as they are
  have hstorage : ((inMemory requests).list root).2.storage = (inMemory requests).storage := by
    rw [list, storage_answer]
  have hfind (location : String) :
      ((inMemory requests).list root).2.storage.find? location = held requests location := by
    rw [hstorage, find?_inMemory]
  have hlisted : ((inMemory requests).list root).2.storage.backend = .memory := hstorage ▸ hmemory
  refine ⟨f, hf, hsize, ?_⟩
  split
  · rename_i hplain
    apply opens_of_find? hlisted
    rw [hlocate.2 hplain, hfind, hf]
  · rename_i hencoded
    refine ⟨mt hlocate.1 hencoded, ?_⟩
    split
    · rename_i g hg
      exact opens_of_find? hlisted ((hfind _).trans hg)
    · rename_i hnone
      rw [openFile_eq hlisted, hfind, hnone]

theorem opens_listed_replaced :
    let requests :=
  [Request.put "/a//b" (.raw [1]), .put "c" (.raw [2]), .put "a/b/" (.raw [3, 4]), .delete "c"]
    ∃ files, ((inMemory requests).list "a").1 = .ok files ∧ ⟨"a/b", 2⟩ ∈ files ∧
      '%' ∉ "a/b".toList ∧
      ((inMemory requests).list "a").2.Opens "a/b" (.raw [3, 4]) := by
  intro requests
  have hheld : held requests "a/b" = some (.raw [3, 4]) := by
    have hfirst : locate "/a//b" = "a/b" := by decide +kernel
    have hsecond : locate "a/b/" = "a/b" := by decide +kernel
    have hother : locate "c" ≠ "a/b" := by decide +kernel
    simp [requests, held, Request.effect, hsecond, hother]
  have hkept : (inMemory requests).storage.IsKept :=
    isKept_foldl_after (isKept_empty .memory) requests
  obtain ⟨files, hfiles, hlist⟩ := list_memory (backend_inMemory requests) "a"
  have hmem : ⟨"a/b", 2⟩ ∈ files := (mem_list_iff hkept hlist).2
    ⟨.raw [3, 4], (find?_inMemory requests "a/b").trans hheld, rfl, by decide +kernel⟩
  obtain ⟨files', hfiles', hall⟩ := opens_listed requests "a"
  obtain rfl := Except.ok.inj (hfiles.symm.trans hfiles')
  obtain ⟨f, hf, -, hopens⟩ := hall ⟨"a/b", 2⟩ hmem
  obtain rfl := Option.some.inj (hf.symm.trans hheld)
  rw [if_pos (by decide)] at hopens
  exact ⟨files, hfiles, hmem, by decide, hopens⟩

/-- A file whose name was encoded is listed, and its path leads nowhere. -/
theorem opens_listed_encoded :
    let fs := inMemory [.put "a%b" (.raw [1])]
    (fs.list "").1 = .ok [⟨"a%25b", 1⟩] ∧
      ((fs.list "").2.openFile "a%25b").1 = .error (missing "a%25b") := by
  intro fs
  have hstored : locate "a%b" = "a%25b" := by decide +kernel
  have hopened : locate "a%25b" = "a%2525b" := by decide +kernel
  have hbelow : isBelow (locate "") "a%25b" = true := by decide +kernel
  have hparent : (ancestors "a%25b").eraseDups = [""] := by decide +kernel
  have hstorage : fs.storage = ⟨.memory, [("a%25b", .raw [1])], [""]⟩ := by
    show ((ofStorage (.empty .memory)).put "a%b" (.raw [1])).2.storage = _
    rw [put_memory (show (ofStorage (.empty .memory)).storage.backend = .memory from rfl), hstored]
    simp [ofStorage, Storage.insert, empty, hparent]
  have hlisted : (fs.list "").2.storage = fs.storage := by rw [list, storage_answer]
  constructor
  · rw [list, result_answer, hstorage]
    simp [Storage.list, isBlocked, hbelow, FileImage.size, FileImage.bytes]
  · rw [openFile_eq (by rw [hlisted, hstorage]), hlisted, hstorage, hopened]
    rfl

end FileSystem

end TableScan
