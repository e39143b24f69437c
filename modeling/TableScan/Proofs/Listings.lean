import TableScan.Proofs.Paths
import TableScan.Proofs.Results
import TableScan.Storage.Access
import TableScan.Storage.Disk
import Mathlib.Data.List.Nodup
import Mathlib.Data.String.Basic

namespace TableScan

namespace Storage

open TableScan.Path

variable {s : Storage}

/-- One file a path, and no idle slashes in paths: so files are kept, however they come to be there.
-/
structure IsKept (s : Storage) : Prop where
  distinct : (s.files.map (·.1)).Nodup
  normal : ∀ path ∈ s.files.map (·.1), IsNormal path

theorem isKept_empty (backend : Backend) : (empty backend).IsKept where
  distinct := List.nodup_nil
  normal _ h := absurd h List.not_mem_nil

theorem IsKept.of_sublist {s' : Storage} (hs : s.IsKept) (h : s'.files.Sublist s.files) :
    s'.IsKept where
  distinct := hs.distinct.sublist (h.map _)
  normal path hpath := hs.normal path ((h.map _).subset hpath)

theorem IsKept.insert {location : String} {f : FileImage} (hs : s.IsKept) (h : IsNormal location) :
    (s.insert location f).IsKept where
  distinct := by
    have hrest := hs.distinct.sublist ((List.filter_sublist (p := fun (file : String × FileImage) =>
      file.1 ≠ location)).map (·.1))
    refine List.nodup_cons.2 ⟨fun hmem => ?_, hrest⟩
    obtain ⟨file, hfile, hlocation⟩ := List.mem_map.1 hmem
    exact of_decide_eq_true (List.mem_filter.1 hfile).2 hlocation
  normal path hpath := by
    rcases List.mem_cons.1 hpath with rfl | hpath
    · exact h
    · exact hs.normal path ((List.filter_sublist.map _).subset hpath)

theorem IsKept.put {s' : Storage} {path : String} {f : FileImage} (hs : s.IsKept)
    (h : s.put path f = .ok s') :
    s'.IsKept := by
  simp only [Storage.put] at h
  split at h
  · cases h
  · cases h
    exact hs.insert (isNormal_locate path)

theorem IsKept.delete {s' : Storage} {path : String} (hs : s.IsKept) (h : s.delete path = .ok s') :
    s'.IsKept := by
  simp only [Storage.delete] at h
  split at h
  · cases h
  · split at h
    · cases h
    · cases h
      exact hs.of_sublist List.filter_sublist

theorem IsKept.below {location : String} {s' : Storage} (hs : s.IsKept)
    (h : s'.files = s.files.filterMap fun (path, f) => (below? location path).map (·, f)) :
    s'.IsKept := by
  have hpaths : s'.files.map (·.1) = (s.files.map (·.1)).filterMap (below? location) := by
    rw [h, List.map_filterMap, List.filterMap_map]
    simp [Function.comp_def]
  constructor
  · rw [hpaths]
    refine List.Nodup.filterMap (fun path path' rest hpath hpath' => ?_) hs.distinct
    rw [below?_eq_some.1 hpath, below?_eq_some.1 hpath']
  · rw [hpaths]
    intro rest hrest
    obtain ⟨path, hpath, hbelow⟩ := List.mem_filterMap.1 hrest
    exact (below?_eq_some.1 hbelow ▸ hs.normal path hpath).sides.2.1

theorem isBelow_locate {root location : String} (h : IsNormal location) :
    isBelow (locate root) location ↔ IsBelow (locate root) location := by
  unfold isBelow
  split
  · rename_i hroot
    rw [hroot, decide_eq_true_iff, Ne, h.eq_empty_iff]
    exact ⟨fun hne => ⟨_, hne, rfl⟩, fun ⟨names, hnames, hparts⟩ => hparts ▸ hnames⟩
  · rename_i hroot
    rw [Option.isSome_iff_exists]
    simp only [below?_eq_some_iff (isNormal_locate root) hroot h, exists_and_left, exists_eq,
      and_true]

theorem list_perm {root : String} {files : List FileInfo} (h : s.list root = .ok files) :
    files.Pairwise (·.path ≤ ·.path) ∧
      (files.map (·.path)).Perm ((s.files.map (·.1)).filter (isBelow (locate root))) := by
  simp only [Storage.list] at h
  split at h
  · cases h
  · cases h
    have hle (a b : FileInfo) : (compare a.path b.path != .gt) = true ↔ a.path ≤ b.path := by
      rw [bne_iff_ne, ne_eq, compare_gt_iff_gt, not_lt]
    constructor
    · refine (List.pairwise_mergeSort (fun a b c hab hbc => ?_) (fun a b => ?_) _).imp (hle _ _).1
      · exact (hle a c).2 (((hle a b).1 hab).trans ((hle b c).1 hbc))
      · rw [Bool.or_eq_true, hle, hle]
        exact le_total a.path b.path
    · refine ((List.mergeSort_perm _ _).map _).trans (.of_eq ?_)
      rw [List.map_map, List.filter_map]
      rfl

theorem list_eq_ok {root : String} {files : List FileInfo} (hs : s.IsKept)
    (h : s.list root = .ok files) :
    (files.map (·.path)).Pairwise (· < ·) ∧ ∀ path, path ∈ files.map (·.path) ↔
      path ∈ s.files.map (·.1) ∧ IsBelow (locate root) path := by
  obtain ⟨hsorted, hperm⟩ := list_perm h
  constructor
  · exact (List.pairwise_map.2 hsorted).imp₂ (fun _ _ => lt_of_le_of_ne)
      (hperm.nodup_iff.2 (hs.distinct.sublist List.filter_sublist))
  · intro path
    rw [hperm.mem_iff, List.mem_filter]
    exact and_congr_right fun hpath => isBelow_locate (hs.normal path hpath)

theorem list_of_perm {root : String} {paths : List String}
    (hroot : s.isBlocked (locate root) = false) (hsorted : paths.Pairwise (· ≤ ·))
    (hperm : paths.Perm ((s.files.map (·.1)).filter (isBelow (locate root)))) :
    ∃ files, s.list root = .ok files ∧ files.map (·.path) = paths := by
  obtain ⟨files, hfiles⟩ : ∃ files, s.list root = .ok files := by
    simp only [Storage.list, hroot]
    exact ⟨_, rfl⟩
  obtain ⟨hlisted, hperm'⟩ := list_perm hfiles
  exact ⟨files, hfiles, (hperm'.trans hperm.symm).eq_of_pairwise (fun _ _ _ _ => le_antisymm)
    (List.pairwise_map.2 hlisted) hsorted⟩

theorem access_openFile_eq_ok {path : String} {file : OpenFile}
    (h : (s.access.openFile path).result = .ok file) :
    ∃ image, s.find? (locate path) = some image ∧ file = .ofImage path image := by
  simp only [access, opened, openFile] at h
  split at h
  · cases h
  · rename_i handle hopen
    split at hopen
    · cases hopen
    · split at hopen
      · rename_i f hf
        cases hopen
        rw [hf] at h
        exact ⟨f, hf, (Except.ok.inj h).symm⟩
      · cases hopen

end Storage

namespace Disk

theorem isKept_ofFiles {files : List (String × FileImage)}
    (h : ∀ path ∈ files.map (·.1), Path.IsNormal path) :
    (ofFiles files).storage.IsKept := by
  have run (s : Storage) (hs : s.IsKept) :
      (files.foldl (fun s (path, f) => s.insert path f) s).IsKept := by
    induction files generalizing s with
    | nil => exact hs
    | cons file files ih =>
      obtain ⟨hfile, hfiles⟩ := List.forall_mem_cons.1 h
      exact ih hfiles _ (hs.insert hfile)
  exact run _ (Storage.isKept_empty _)

theorem isKept_below? {d : Disk} {root : String} {s : Storage} (hd : d.storage.IsKept)
    (h : d.below? root = some s) :
    s.IsKept := by
  obtain ⟨location, -, h⟩ := Option.bind_eq_some_iff.1 h
  dsimp only at h
  split at h
  · cases h
    exact hd
  · split at h
    · cases h
    · cases h
      exact hd.below rfl

end Disk

theorem StorageConfig.isKept_build {d : Disk} {c : StorageConfig} {fs : FileSystem}
    (hd : d.storage.IsKept) (h : c.build d = .ok fs) : fs.storage.IsKept := by
  obtain ⟨s, hstorage, h⟩ := bind_eq_ok.1 h
  dsimp only at h
  split at h
  · cases h
  · cases h
    unfold storage at hstorage
    split at hstorage
    · cases hstorage
      exact Storage.isKept_empty _
    · split at hstorage
      · rename_i hbelow
        cases hstorage
        exact Disk.isKept_below? hd hbelow
      · cases hstorage

namespace FileSystem

inductive Request : Type
  | put : String → FileImage → Request
  | delete : String → Request
  | list : String → Request
  | openFile : String → Request
  | read : Handle → Nat → Nat → Request

def after (fs : FileSystem) : Request → FileSystem
  | .put path f => (fs.put path f).2
  | .delete path => (fs.delete path).2
  | .list root => (fs.list root).2
  | .openFile path => (fs.openFile path).2
  | .read h start stop => (fs.read h start stop).2

variable {fs : FileSystem}

theorem storage_answer {α : Type} (done : α → Traffic) (r : Except StorageError α) :
    (fs.answer done r).2.storage = fs.storage := by
  cases r <;> rfl

theorem isKept_after (h : fs.storage.IsKept) (request : Request) :
    (fs.after request).storage.IsKept := by
  cases request with
  | put path f =>
    simp only [after, put]
    split
    · rename_i hput
      exact h.put hput
    · exact h
  | delete path =>
    simp only [after, delete]
    split
    · rename_i hdelete
      exact h.delete hdelete
    · exact h
  | list root => rwa [after, list, storage_answer]
  | openFile path => rwa [after, openFile, storage_answer]
  | read handle start stop =>
    simp only [after, read]
    split
    · exact h
    · rwa [storage_answer]

theorem isKept_foldl_after (h : fs.storage.IsKept) (requests : List Request) :
    (requests.foldl after fs).storage.IsKept := by
  induction requests generalizing fs with
  | nil => exact h
  | cons request requests ih => exact ih (isKept_after h request)

end FileSystem

end TableScan
