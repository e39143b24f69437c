import TableScan.Proofs.Filtering
import TableScan.Proofs.Listings

/-!
What discovery finds below a root: which of the stored files, in which order, and what it takes
their paths to say. Listing and discovery bring a root into shape by rules of their own, and
discovery knows the place of a file below the root only where both rules come to the same.
-/

namespace TableScan

open TableScan.Path Storage

def Storage.IsStraight (root : String) : Prop := trim root = locate root

instance (root : String) : Decidable (IsStraight root) := inferInstanceAs (Decidable (_ = _))

theorem Storage.isStraight_of_parts {root : String} (h : IsNormal (trim root))
    (hparts : parts (locate root) = parts root) : IsStraight root :=
  h.ext (isNormal_locate root) (by rw [parts_trim, hparts])

def DiscoveryOptions.Ignores (o : DiscoveryOptions) (names : List String) : Prop :=
  ∃ name ∈ names, ∃ start ∈ o.ignorePrefixes, start ≠ "" ∧ start.toList <+: name.toList

namespace Discovery

variable {d : Discovery} {files : FileAccess} {root path : String}

def namesSeen (root path : String) : List String :=
  if IsStraight root then namesBelow (locate root) path else parts path

def pathRead? (root path : String) : Option String :=
  if IsStraight root then some ("/".intercalate (namesBelow (locate root) path)) else none

theorem isName_of_mem_namesSeen {name : String} (h : name ∈ namesSeen root path) : IsName name := by
  unfold namesSeen at h
  split at h
  · exact isName_of_mem_namesBelow h
  · exact isName_of_mem_parts h

theorem namesSeen_ne_nil (h : IsBelow (locate root) path) : namesSeen root path ≠ [] := by
  unfold namesSeen
  split
  · exact h.namesBelow_ne_nil
  · rw [h.parts_eq]
    exact List.append_ne_nil_of_right_ne_nil _ h.namesBelow_ne_nil

theorem below?_trim_of_not_isStraight (hroot : ¬IsStraight root) (hp : IsNormal path)
    (hbelow : IsBelow (locate root) path) : trim root ≠ "" ∧ below? (trim root) path = none := by
  constructor
  · intro hempty
    have hparts : parts root = [] := by rw [← parts_trim, hempty, parts_empty]
    exact hroot (isStraight_of_parts (hempty ▸ rfl) (by rw [parts_locate, hparts, List.map_nil]))
  · rw [Option.eq_none_iff_forall_ne_some]
    intro rest hrest
    obtain rfl := below?_eq_some.1 hrest
    have hparts := parts_below (trim root) rest
    rw [hbelow.parts_eq, parts_trim] at hparts
    exact hroot (isStraight_of_parts hp.sides.1.1
      (List.append_inj_left hparts (by rw [parts_locate, List.length_map])))

theorem pathRead?_eq (hp : IsNormal path) (hbelow : IsBelow (locate root) path) :
    (if trim root = "" then some path else below? (trim root) path) = pathRead? root path := by
  unfold pathRead?
  by_cases hroot : IsStraight root
  · rw [if_pos hroot, show trim root = locate root from hroot]
    split
    · rename_i hempty
      rw [namesBelow, hempty, parts_empty, List.length_nil, List.drop_zero, hp]
    · rename_i hne
      exact (below?_eq_some_iff (isNormal_locate root) hne hp).2 ⟨hbelow, rfl⟩
  · obtain ⟨hne, hnone⟩ := below?_trim_of_not_isStraight hroot hp hbelow
    rw [if_neg hroot, if_neg hne, hnone]

theorem partitionPath?_eq (hd : d.selector = .ofRoot root) (hbase : d.options.baseDirectory = none)
    (hp : IsNormal path) (hbelow : IsBelow (locate root) path) :
    d.partitionPath? path = pathRead? root path := by
  have hroot : d.base = trim root := by simp only [base, hbase, hd, Selector.ofRoot, Selector.root]
  rw [partitionPath?, hroot, pathRead?_eq hp hbelow]

theorem relative_eq (hd : d.selector = .ofRoot root) (hp : IsNormal path)
    (hbelow : IsBelow (locate root) path) :
    d.relative path = "/".intercalate (namesSeen root path) := by
  have hroot : d.selector.root = trim root := by simp only [hd, Selector.ofRoot, Selector.root]
  have hread : d.relative path = (pathRead? root path).getD path := by
    simp only [relative, hroot, ← pathRead?_eq hp hbelow, apply_ite (Option.getD · path),
      Option.getD_some]
  rw [hread]
  unfold pathRead? namesSeen
  by_cases hstraight : IsStraight root
  · rw [if_pos hstraight, if_pos hstraight, Option.getD_some]
  · rw [if_neg hstraight, if_neg hstraight, Option.getD_none, hp]

theorem ignores_iff (hd : d.selector = .ofRoot root) (hp : IsNormal path)
    (hbelow : IsBelow (locate root) path) :
    d.ignores path = true ↔ d.options.Ignores (namesSeen root path) := by
  unfold ignores DiscoveryOptions.Ignores
  rw [relative_eq hd hp hbelow, split_intercalate (namesSeen_ne_nil hbelow) fun _ =>
    isName_of_mem_namesSeen]
  simp [List.isPrefixOf_iff_prefix]

theorem accepts_eq_ok {b : Bool} (h : (d.accepts files path).result = .ok b) :
    ∃ file, (files.openFile path).result = .ok file ∧ d.format.isSupported file = .ok b := by
  simp only [accepts, Accounted.result_bind] at h
  obtain ⟨file, hfile, h⟩ := bind_eq_ok.1 h
  obtain ⟨supported, hsupported, h⟩ := bind_eq_ok.1 h
  refine ⟨file, hfile, hsupported.trans ?_⟩
  split at h <;> cases h
  rfl

theorem paths_eq_ok {paths : List String} (h : (d.paths files).result = .ok paths) :
    ∃ found, (d.selector.paths files).result = .ok found ∧ paths.Sublist found ∧
      (∀ path ∈ paths, ¬d.ignores path) ∧ ∀ path ∈ found, ¬d.ignores path →
        ∃ file, (files.openFile path).result = .ok file ∧
          (path ∈ paths ↔ d.format.isSupported file = .ok true) := by
  simp only [Discovery.paths, Accounted.result_bind] at h
  obtain ⟨found, hfound, h⟩ := bind_eq_ok.1 h
  rw [Accounted.result_filterM] at h
  obtain ⟨keep, hkeep, rfl⟩ := filterM_eq_ok h
  refine ⟨found, hfound, List.filter_sublist.trans List.filter_sublist, fun path hpath => ?_,
    fun path hpath hignored => ?_⟩
  · simpa using (List.mem_filter.1 (List.mem_of_mem_filter hpath)).2
  · have hmem : path ∈ found.filter fun path => !d.ignores path :=
      List.mem_filter.2 ⟨hpath, by simpa using hignored⟩
    obtain ⟨file, hfile, hsupported⟩ := accepts_eq_ok (hkeep path hmem)
    refine ⟨file, hfile, ?_⟩
    rw [List.mem_filter, hsupported, Except.ok.injEq]
    exact and_iff_right hmem

theorem listed_eq_ok {s : Storage} {listed : List String} (hs : s.IsKept)
    (h : ((Selector.ofRoot root).paths s.access).result = .ok listed) :
    listed.Pairwise (· < ·) ∧ ∀ path, path ∈ listed ↔
    path ∈ s.files.map (·.1) ∧ IsBelow (locate root) path := by
  simp only [Selector.ofRoot, Selector.paths, Accounted.result_bind] at h
  obtain ⟨files, hfiles, h⟩ := bind_eq_ok.1 h
  cases h
  simp only [access, Storage.listed] at hfiles
  split at hfiles
  · rename_i hlist
    cases hfiles
    rw [← locate_trim]
    exact list_eq_ok hs hlist
  · cases hfiles

theorem mem_paths {s : Storage} {paths : List String} (hs : s.IsKept)
    (hd : d.selector = .ofRoot root) (h : (d.paths s.access).result = .ok paths) :
    paths.Pairwise (· < ·) ∧ ∀ path, path ∈ paths ↔
      path ∈ s.files.map (·.1) ∧ IsBelow (locate root) path ∧
      ¬d.options.Ignores (namesSeen root path) ∧
        ∃ image, s.find? (locate path) = some image ∧
          d.format.isSupported (.ofImage path image) = .ok true := by
  obtain ⟨listed, hlisted, hsub, hseen, hopened⟩ := paths_eq_ok h
  obtain ⟨hsorted, hbelow⟩ := listed_eq_ok hs (hd ▸ hlisted)
  refine ⟨hsorted.sublist hsub, fun path => ⟨fun hpath => ?_, ?_⟩⟩
  · have hfound := hsub.subset hpath
    obtain ⟨hstored, hroot⟩ := (hbelow path).1 hfound
    obtain ⟨file, hfile, hsupported⟩ := hopened path hfound (hseen path hpath)
    obtain ⟨image, himage, rfl⟩ := access_openFile_eq_ok hfile
    exact ⟨hstored, hroot, mt (ignores_iff hd (hs.normal path hstored) hroot).2 (hseen path hpath),
      image, himage, hsupported.1 hpath⟩
  · rintro ⟨hstored, hroot, hignored, image, himage, hsupported⟩
    obtain ⟨file, hfile, htaken⟩ := hopened path ((hbelow path).2 ⟨hstored, hroot⟩)
      (mt (ignores_iff hd (hs.normal path hstored) hroot).1 hignored)
    obtain ⟨image', himage', rfl⟩ := access_openFile_eq_ok hfile
    cases himage.symm.trans himage'
    exact htaken.2 hsupported

theorem path_of_fragment {scheme : Scheme} {fr : Fragment}
    (h : (d.fragment files scheme path).result = .ok fr) :
    fr.path = path := by
  simp only [fragment, Accounted.result_bind] at h
  obtain ⟨p, -, h⟩ := bind_eq_ok.1 h
  obtain ⟨file, -, h⟩ := bind_eq_ok.1 h
  obtain ⟨physical, -, h⟩ := bind_eq_ok.1 h
  cases h
  rfl

theorem paths_of_fragments {scheme : Scheme} {paths : List String} {fragments : List Fragment}
    (h : List.Forall₂ (fun path fr => (d.fragment files scheme path).result =
      .ok fr) paths fragments) :
    fragments.map (·.path) = paths := by
  induction h with
  | nil => rfl
  | cons hfr _ ih => rw [List.map_cons, path_of_fragment hfr, ih]

end Discovery

namespace Dataset

open Discovery

variable {s : Storage} {root : String} {format : Format} {options : DiscoveryOptions} {d : Dataset}

/-- The dataset of the files that storage has below a root. Where the root is stored as it is
spelled, discovery sees the names below it and has the scheme read them; otherwise it sees all
names, and the scheme reads none. -/
structure IsFoundBelow (d : Dataset) (s : Storage) (root : String) (format : Format)
    (options : DiscoveryOptions) : Prop where
  ordered : (d.fragments.map (·.path)).Pairwise (· < ·)
  mem_iff : ∀ path, path ∈ d.fragments.map (·.path) ↔
    path ∈ s.files.map (·.1) ∧ IsBelow (locate root) path ∧ ¬options.Ignores (namesSeen root path) ∧
      ∃ image, s.find? (locate path) = some image ∧
        format.isSupported (.ofImage path image) = .ok true
  partitions : ∃ scheme,
    options.partitioning.resolve ((d.fragments.map (·.path)).filterMap (pathRead? root)) =
      .ok scheme ∧
      ∀ fr ∈ d.fragments, (pathRead? root fr.path).elim (.ok .true_) scheme.parse = .ok fr.partition

theorem isFoundBelow_discover (hs : s.IsKept) (hbase : options.baseDirectory = none)
    (h : (discover s.access root format options).result = .ok d) :
    d.IsFoundBelow s root format options := by
  obtain ⟨found, hfound, rfl⟩ := discover_eq_ok h
  obtain ⟨paths, scheme, hpaths, hscheme, hfragments, -⟩ := inspect_found.1 hfound
  obtain ⟨hsorted, hmem⟩ := mem_paths hs rfl hpaths
  have hread (path : String) (hpath : path ∈ paths) :
      partitionPath? ⟨.ofRoot root, format, options⟩ path = pathRead? root path := by
    obtain ⟨hstored, hroot, -⟩ := (hmem path).1 hpath
    exact partitionPath?_eq rfl hbase (hs.normal path hstored) hroot
  have hpaths : (Dataset.fragments ⟨[found.source], found.schema⟩).map (·.path) = paths := by
    rw [fragments, List.flatMap_singleton]
    exact paths_of_fragments hfragments
  refine ⟨hpaths ▸ hsorted, hpaths ▸ hmem, scheme, ?_, fun fr hfr => ?_⟩
  · rwa [hpaths, ← List.filterMap_congr hread]
  · rw [fragments, List.flatMap_singleton] at hfr
    obtain ⟨path, hpath, hfragment⟩ := forall₂_mem hfragments hfr
    have hpartition := (fragment_eq_ok hfragment).1
    rw [partition, hread path hpath] at hpartition
    rw [path_of_fragment hfragment, ← hpartition]
    cases pathRead? root path <;> rfl

section Rows

open Scan

def ofPaths (paths : List String) : Storage :=
  ⟨.memory, paths.map (·, .ipc ⟨sevens.schema, [sevens]⟩), []⟩

theorem files_ofPaths (paths : List String) : (ofPaths paths).files.map (·.1) = paths :=
  List.map_map.trans (List.map_id paths)

theorem isKept_ofPaths {paths : List String} (hdistinct : paths.Nodup)
    (hnormal : ∀ path ∈ paths, IsNormal path) :
    (ofPaths paths).IsKept := by
  constructor <;> rwa [files_ofPaths]

theorem discover_ofPaths {paths listed taken : List String} {root : String} {t : DataType}
    {fragments : List Fragment} (hsorted : listed.Pairwise (· ≤ ·))
    (hlisted : listed.Perm (paths.filter (isBelow (locate root))))
    (htaken :
      ((listed.filter fun path => !ignores ⟨.ofRoot root, .ipc, underKey t⟩ path).filterM
        fun path =>
      (accepts ⟨.ofRoot root, .ipc, underKey t⟩ (ofPaths paths).access path).result) = .ok taken)
    (hfragments :
      List.Forall₂ (fun path fr => (fragment ⟨.ofRoot root, .ipc, underKey t⟩ (ofPaths paths).access
      (.hive [⟨"k", t, true, .empty⟩] true) path).result = .ok fr) taken fragments)
    (hne : fragments ≠ []) (hphysical : ∀ fr ∈ fragments, fr.physical = sevens.schema) :
    (discover (ofPaths paths).access root .ipc (underKey t)).result =
      .ok ⟨[.leaf .filesystem (sevens.schema ++ [⟨"k", t, true, .empty⟩]) .true_ fragments],
        sevens.schema ++ [⟨"k", t, true, .empty⟩]⟩ := by
  obtain ⟨files, hfiles, rfl⟩ : ∃ files, (ofPaths paths).list (trim root) = .ok files ∧
      files.map (·.path) = listed :=
    list_of_perm rfl hsorted (by rwa [files_ofPaths, locate_trim])
  have hpaths : (Discovery.paths ⟨.ofRoot root, .ipc, underKey t⟩ (ofPaths paths).access).result =
      .ok taken := by
    simp only [Discovery.paths, Selector.ofRoot, Selector.paths, access, Storage.listed, hfiles,
      Accounted.result_bind, Accounted.result_filterM]
    exact htaken
  have hfound : (inspect ⟨.ofRoot root, .ipc, underKey t⟩ (ofPaths paths).access).result =
      .ok ⟨fragments, sevens.schema ++ [⟨"k", t, true, .empty⟩]⟩ :=
    inspect_found.2 ⟨_, _, hpaths, rfl, hfragments,
      schemaOf_underKey root t hne hphysical (List.nodup_singleton _) rfl⟩
  unfold discover
  rw [Accounted.result_bind, hfound]
  rfl

def fileOf (path : String) (partition : Expr) : Fragment :=
  ⟨.stored path, .ipc, partition, sevens.schema⟩

def keyIs (i : Fixed .int32) : Expr := .compare .eq (.field "k") (.lit (.ofFixed i))

def twoOfFour : Storage := ofPaths ["t/k=2/b", "u/k=4/d", "t/_k=3/c", "t/k=1/a"]

theorem isFoundBelow_discover_keyed :
    ∃ d, twoOfFour.IsKept ∧ (underKey (.int .int32)).baseDirectory = none ∧
    (discover twoOfFour.access "/t/" .ipc (underKey (.int .int32))).result = .ok d ∧
    d.fragments = [fileOf "t/k=1/a" (keyIs ⟨1, by decide, by decide⟩),
      fileOf "t/k=2/b" (keyIs ⟨2, by decide, by decide⟩)] ∧
    d.IsFoundBelow twoOfFour "/t/" .ipc (underKey (.int .int32)) := by
  have hkept : twoOfFour.IsKept := isKept_ofPaths (by decide) (by decide +kernel)
  have hd := @discover_ofPaths ["t/k=2/b", "u/k=4/d", "t/_k=3/c", "t/k=1/a"]
    ["t/_k=3/c", "t/k=1/a", "t/k=2/b"] _
    "/t/" (.int .int32)
    [fileOf "t/k=1/a" (keyIs ⟨1, by decide, by decide⟩),
      fileOf "t/k=2/b" (keyIs ⟨2, by decide, by decide⟩)]
    (by decide) (by decide +kernel) rfl (.cons rfl (.cons rfl .nil)) (List.cons_ne_nil _ _)
      (by simp [fileOf])
  exact ⟨_, hkept, rfl, hd, rfl, isFoundBelow_discover hkept rfl hd⟩

/-- A root spelled with two slashes leads to the file, but nothing is read of the key below it. -/
theorem isFoundBelow_discover_doubled : ∃ d, (ofPaths ["a/b/k=1/x"]).IsKept ∧
    (discover (ofPaths ["a/b/k=1/x"]).access "a//b" .ipc (underKey (.int .int32))).result = .ok d ∧
    d.fragments = [fileOf "a/b/k=1/x" .true_] ∧
    Scheme.parse (.hive [⟨"k", .int .int32, true, .empty⟩] true)
    ("/".intercalate (namesBelow (locate "a//b") "a/b/k=1/x")) =
      .ok (keyIs ⟨1, by decide, by decide⟩) := by
  have hd :=
    @discover_ofPaths ["a/b/k=1/x"] ["a/b/k=1/x"] _ "a//b" (.int .int32) [fileOf "a/b/k=1/x" .true_]
    (by decide) (by decide +kernel) rfl (.cons rfl .nil) (List.cons_ne_nil _ _) (by simp [fileOf])
  exact ⟨_, isKept_ofPaths (by decide) (by decide +kernel), hd, rfl, rfl⟩

end Rows

end Dataset

end TableScan
