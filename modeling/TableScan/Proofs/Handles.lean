import TableScan.Proofs.Opening

namespace TableScan

open Storage

namespace Handle

variable {h : Handle} {s : Storage} {start stop : Nat} {bytes : List UInt8}

theorem admits_iff : h.admits start stop = true ↔ start ≤ stop ∧ stop ≤ h.size := by
  rw [admits, Bool.and_eq_true, decide_eq_true_iff, decide_eq_true_iff]

theorem read_out_of_bounds (hbounds : stop < start ∨ h.size < stop) :
    h.admits start stop = false ∧
      h.read s start stop = .error (outOfBounds start stop ("'" ++ h.display ++ "'") h.size) := by
  have hadmits : h.admits start stop = false := by
    rw [← Bool.not_eq_true, admits_iff]
    omega
  exact ⟨hadmits, if_pos (by rw [hadmits]; rfl)⟩

theorem read_eq_ok : h.read s start stop = .ok bytes ↔ start ≤ stop ∧ stop ≤ h.size ∧
    if start = stop then bytes = []
    else ∃ g, s.find? h.location = some g ∧ start < g.size ∧
    bytes = (g.bytes.drop start).take (stop - start) := by
  by_cases hbounds : start ≤ stop ∧ stop ≤ h.size
  · have hadmits : ¬(!h.admits start stop) = true := by simp [admits_iff.2 hbounds]
    rw [read, if_neg hadmits]
    by_cases hempty : start = stop
    · subst hempty
      simp [hbounds.2, eq_comm]
    · rw [if_neg hempty, if_neg hempty]
      cases s.find? h.location with
      | none => simp
      | some g =>
        by_cases hpast : g.size ≤ start
        · simp [hpast]
        · simp [hpast, hbounds, not_le.1 hpast, eq_comm]
  · rw [(read_out_of_bounds (by omega)).2]
    exact ⟨(by simp), fun hread => absurd ⟨hread.1, hread.2.1⟩ hbounds⟩

theorem length_of_read (hread : h.read s start stop = .ok bytes) :
    bytes.length = stop - start ↔ start = stop ∨ ∃ g, s.find? h.location = some g ∧
    stop ≤ g.size := by
  obtain ⟨hle, -, hread⟩ := read_eq_ok.1 hread
  split at hread
  · rename_i hempty
    simp [hread, hempty]
  · rename_i hne
    obtain ⟨g, hg, hstart, rfl⟩ := hread
    have hlength : ((g.bytes.drop start).take (stop - start)).length =
        min (stop - start) (g.size - start) := by
      rw [List.length_take, List.length_drop, FileImage.size]
    rw [hlength]
    constructor
    · intro h
      exact .inr ⟨g, hg, by omega⟩
    · rintro (h | ⟨g', hg', hstop⟩)
      · exact absurd h hne
      · cases hg.symm.trans hg'
        omega

end Handle

namespace FileSystem

variable {fs : FileSystem} {h : Handle} {f : FileImage} {path : String}
  {requests before after : List Request}

def Request.replaces (location : String) : Request → Bool
  | .put path _ | .delete path => locate path = location
  | .list _ | .openFile _ | .read _ _ _ => false

theorem Request.effect_of_not_replaces {request : Request} {location : String}
    (h : request.replaces location = false) (before : Option FileImage) :
    request.effect location before = before := by
  cases request with
  | put path f => exact if_neg (of_decide_eq_false h)
  | delete path => exact if_neg (of_decide_eq_false h)
  | list | openFile | read => rfl

theorem held_append {location : String} (h : ∀ request ∈ after, request.replaces location = false) :
    held (before ++ after) location = held before location := by
  rw [held, List.foldl_append, ← held]
  induction after generalizing before with
  | nil => rfl
  | cons request after ih =>
    rw [List.foldl_cons, Request.effect_of_not_replaces (h request List.mem_cons_self)]
    exact ih fun request hrequest => h request (List.mem_cons_of_mem _ hrequest)

theorem openFile_inMemory (hopen : ((inMemory requests).openFile path).1 = .ok h) :
    h.display = path ∧ h.location = locate path ∧ ∃ f, held requests h.location = some f ∧
    h.size = f.size := by
  rw [openFile_eq (backend_inMemory requests), find?_inMemory] at hopen
  split at hopen
  · rename_i f hf
    cases hopen
    exact ⟨rfl, rfl, f, hf, rfl⟩
  · cases hopen

theorem result_read (fs : FileSystem) (h : Handle) (start stop : Nat) :
    (fs.read h start stop).1 = h.read fs.storage start stop := by
  unfold read
  split
  · rfl
  · exact result_answer _ _

/--
Reads by a handle that was opened in memory, behind any requests since. Out of the bounds of the
file that was opened they fail, and nothing is counted. What they return is as long as the range
just if the range is empty or the present file reaches to its end; so it is, and with the bytes of
the file that was opened, while that is not replaced.
-/
theorem read_opened (hopen : ((inMemory before).openFile path).1 = .ok h) (after : List Request) :
    let requests := before ++ .openFile path :: after
    ∃ f, held before h.location = some f ∧ h.size = f.size ∧
      (∀ start stop, stop < start ∨ h.size < stop → (inMemory requests).read h start stop =
        (.error (outOfBounds start stop ("'" ++ path ++ "'") h.size), inMemory requests)) ∧
      (∀ start stop bytes, ((inMemory requests).read h start stop).1 = .ok bytes →
        start ≤ stop ∧ stop ≤ h.size ∧ (bytes.length = stop - start ↔
          start = stop ∨ ∃ g, held requests h.location = some g ∧ stop ≤ g.size)) ∧
      ((∀ request ∈ after, request.replaces h.location = false) → ∀ start stop, start ≤ stop →
        stop ≤ h.size →
        ∃ bytes, ((inMemory requests).read h start stop).1 = .ok bytes ∧
        bytes.length = stop - start ∧
          bytes = (f.bytes.drop start).take (stop - start)) := by
  intro requests
  obtain ⟨hdisplay, -, f, hf, hsize⟩ := openFile_inMemory hopen
  have hfind := find?_inMemory requests h.location
  refine ⟨f, hf, hsize, fun start stop hbounds => ?_, fun start stop bytes hread => ?_,
    fun hkept start stop hle hstop => ?_⟩
  · obtain ⟨hadmits, hread⟩ := Handle.read_out_of_bounds hbounds
    rw [read, if_pos (by simp [hadmits]), hread, hdisplay]
  · rw [result_read] at hread
    have hlength := Handle.length_of_read hread
    obtain ⟨hle, hstop, -⟩ := Handle.read_eq_ok.1 hread
    exact ⟨hle, hstop, hfind ▸ hlength⟩
  · have hheld : held requests h.location = some f := by
      refine (held_append fun request hrequest => ?_).trans hf
      rcases List.mem_cons.1 hrequest with rfl | hrequest
      · rfl
      · exact hkept request hrequest
    have hlength : ((f.bytes.drop start).take (stop - start)).length = stop - start := by
      rw [List.length_take, List.length_drop, ← FileImage.size]
      omega
    refine ⟨_, ?_, hlength, rfl⟩
    rw [result_read, Handle.read_eq_ok]
    refine ⟨hle, hstop, ?_⟩
    split
    · rename_i hempty
      rw [hempty, Nat.sub_self, List.take_zero]
    · exact ⟨f, hfind.trans hheld, by omega, rfl⟩

theorem read_opened_replaced :
    let before := [Request.put "f" (.raw [1, 2, 3, 4, 5, 6])]
    let requests := before ++ [.openFile "f", .put "f" (.raw [7, 8, 9])]
    let h : Handle := ⟨"f", "f", 6⟩
    ((inMemory before).openFile "f").1 = .ok h ∧
      (inMemory requests).read h 4 7 = (.error (outOfBounds 4 7 "'f'" 6), inMemory requests) ∧
      ∀ bytes, ((inMemory requests).read h 0 3).1 = .ok bytes → bytes.length = 3 := by
  intro before requests h
  have hlocate : locate "f" = "f" := by decide +kernel
  have hheld : held before "f" = some (.raw [1, 2, 3, 4, 5, 6]) := by
    simp [before, held, Request.effect, hlocate]
  have hheld' : held requests "f" = some (.raw [7, 8, 9]) := by
    simp [requests, before, held, Request.effect, hlocate]
  have hopen : ((inMemory before).openFile "f").1 = .ok h := by
    rw [openFile_eq (backend_inMemory before), find?_inMemory, hlocate, hheld]
    rfl
  obtain ⟨f, -, -, hbounds, hlength, -⟩ := read_opened hopen [.put "f" (.raw [7, 8, 9])]
  exact ⟨hopen, hbounds 4 7 (.inr (by decide)), fun bytes hbytes =>
    (hlength 0 3 bytes hbytes).2.2.2 (.inr ⟨_, hheld', by decide⟩)⟩

/-- Of the six bytes that were there only three are read. -/
theorem read_opened_short :
    let before := [Request.put "f" (.raw [1, 2, 3, 4, 5, 6])]
    ∃ h, ((inMemory before).openFile "f").1 = .ok h ∧
      ((inMemory (before ++ [.openFile "f", .put "f" (.raw [7, 8, 9])])).read h 0 6).1 =
      .ok [7, 8, 9] := by
  intro before
  have hlocate : locate "f" = "f" := by decide +kernel
  refine ⟨⟨"f", "f", 6⟩, ?_, ?_⟩
  · rw [openFile_eq (backend_inMemory before), find?_inMemory]
    simp [before, held, Request.effect, hlocate, FileImage.size, FileImage.bytes]
  · rw [result_read, Handle.read_eq_ok, if_neg (by decide), find?_inMemory]
    refine ⟨by decide, by decide, .raw [7, 8, 9], ?_, by decide, by decide⟩
    simp [before, held, Request.effect, hlocate]

end FileSystem

end TableScan
