import TableScan.Proofs.Executions
import TableScan.Storage.Injection

/-!
Failures in front of storage. They change nothing but what they fail: what succeeds behind them
succeeds without them in the same way, and tasks of other files do not see them.
-/

namespace TableScan

/-- A file that reads fail on wherever they do so on another one. -/
structure OpenFile.Worsens (worse file : OpenFile) : Prop where
  image : worse.image = file.image
  read : worse.readFault = none → file.readFault = none
  column : worse.columnFault = none → file.columnFault = none

section Reading

variable {worse file : OpenFile} {request : ReadRequest} {bs : List Batch}

theorem ParquetFile.ofFile_of_worsens {f : ParquetFile} (hw : worse.Worsens file)
    (h : ofFile worse = .ok f) :
    ofFile file = .ok f := by
  have hf := image_of_ofFile h
  simp only [ofFile, ← hw.image, hf] at h ⊢
  have hfault : f.metadataFault worse = none := by
    by_contra hfault
    rw [if_pos (Option.isSome_iff_ne_none.2 hfault)] at h
    cases h
  have hnone : f.metadataFault file = none := by
    rw [metadataFault, Option.orElse_eq_none] at hfault ⊢
    refine ⟨hw.read hfault.1, ?_⟩
    by_cases hempty : f.groups = [] ∨ f.schema = []
    · rw [if_pos hempty] at hfault ⊢
      exact hw.column hfault.2
    · exact if_neg hempty
  exact if_neg (by simp [hnone])

theorem IpcFile.ofFile_of_worsens {f : IpcFile} (hw : worse.Worsens file)
    (h : ofFile worse = .ok f) :
    ofFile file = .ok f := by
  obtain ⟨_, hread, -⟩ := bind_eq_ok.1 h
  have hf := image_of_ofFile h
  have hnone : worse.readFault = none := by
    unfold OpenFile.readable at hread
    split at hread
    · cases hread
    · assumption
  rw [ofFile, OpenFile.readable, hw.read hnone, ← hw.image, hf]
  rfl

theorem Format.read_of_worsens {format : Format} (hw : worse.Worsens file)
    (h : format.read worse request = .ok (bs.map .ok)) :
    format.read file request = .ok (bs.map .ok) := by
  cases format with
  | ipc =>
    obtain ⟨f, hf, h⟩ := bind_eq_ok.1 h
    exact bind_eq_ok.2 ⟨f, IpcFile.ofFile_of_worsens hw hf, h⟩
  | parquet o =>
    obtain ⟨f, hf, h⟩ := bind_eq_ok.1 h
    refine bind_eq_ok.2 ⟨f, ParquetFile.ofFile_of_worsens hw hf, ?_⟩
    dsimp only at h ⊢
    split at h
    · -- the one batch of a file whose columns cannot be read is a failure
      have hone := Except.ok.inj h
      cases bs <;> cases hone
    · rename_i hreads
      rw [if_neg]
      · exact h
      · simp only [Bool.and_eq_true, Option.isSome_iff_ne_none] at hreads ⊢
        rintro ⟨⟨hcolumn, hfirst⟩, hcolumns⟩
        exact hreads ⟨⟨fun hnone => hcolumn (hw.column hnone), hfirst⟩, hcolumns⟩

end Reading

namespace Injection

def Spares (i : Injection) (path : String) : Prop := ∀ point, i.fails point path = false

variable {i : Injection} {files : FileAccess} {path : String} {t : ScanTask}
  {tasks before behind : List ScanTask} {bs : List Batch}

theorem openFile_wrap (h : i.Spares path) :
    ((i.wrap files).openFile path).result = (files.openFile path).result := by
  have hread : i.readError? .reading path = none := if_neg (by rw [h]; nofun)
  have hcolumn : i.readError? .columns path = none := if_neg (by rw [h]; nofun)
  simp only [wrap, h .opening, hread, hcolumn, Bool.false_eq_true, if_false, Accounted.result_bind]
  cases (files.openFile path).result <;> rfl

theorem worsens_of_openFile {worse : OpenFile}
    (h : ((i.wrap files).openFile path).result = .ok worse) :
    ∃ file, (files.openFile path).result = .ok file ∧ worse.Worsens file := by
  simp only [wrap] at h
  split at h
  · cases h
  · rw [Accounted.result_bind] at h
    obtain ⟨file, hfile, h⟩ := bind_eq_ok.1 h
    cases h
    refine ⟨file, hfile, rfl, fun hnone => ?_, fun hnone => ?_⟩
    · exact ((Option.orElse_eq_none _ _).1 hnone).2
    · exact ((Option.orElse_eq_none _ _).1 hnone).2

theorem results_wrap (h : i.Spares t.fragment.path) :
    t.results (i.wrap files) = t.results files := by
  have hfile : (t.fragment.origin.openFile (i.wrap files)).result =
      (t.fragment.origin.openFile files).result := by
    unfold Fragment.path at h
    cases horigin : t.fragment.origin with
    | stored path =>
      rw [horigin] at h
      exact openFile_wrap h
    | buffer name image => rfl
  rw [ScanTask.results, ScanTask.results, ScanTask.items, ScanTask.items, hfile]

theorem resultsOf_wrap (hbefore : ∀ u ∈ before, i.Spares u.fragment.path)
    (hbehind : ∀ u ∈ behind, i.Spares u.fragment.path) :
    ScanTask.resultsOf (i.wrap files) (before ++ t :: behind) =
      ScanTask.resultsOf files before ++ t.results (i.wrap files) ++
        ScanTask.resultsOf files behind := by
  have hspared {tasks : List ScanTask} (h : ∀ u ∈ tasks, i.Spares u.fragment.path) :
      ScanTask.resultsOf (i.wrap files) tasks = ScanTask.resultsOf files tasks :=
    List.flatMap_congr fun u hu => results_wrap (h u hu)
  rw [← hspared hbefore, ← hspared hbehind]
  simp [ScanTask.resultsOf]

theorem items_of_wrap (h : t.items (i.wrap files) = bs.map .ok) : t.items files = bs.map .ok := by
  obtain ⟨worse, read, _, hworse, hread, -⟩ := ScanTask.items_eq_ok h
  obtain ⟨file, hfile, hw⟩ : ∃ file, (t.fragment.origin.openFile files).result = .ok file ∧
      worse.Worsens file := by
    cases horigin : t.fragment.origin with
    | stored path =>
      rw [horigin] at hworse
      exact worsens_of_openFile hworse
    | buffer name image =>
      rw [horigin] at hworse
      exact ⟨worse, hworse, rfl, id, id⟩
  have hitems {access : FileAccess} {file : OpenFile}
      (hfile : (t.fragment.origin.openFile access).result = .ok file)
      (hread : t.fragment.format.read file t.request = .ok (read.map .ok)) :
      t.items access = t.processAll (read.map .ok) := by
    rw [ScanTask.items, ScanTask.itemsOf, bind_eq_ok.2 ⟨file, hfile, hread⟩]
  rw [hitems hfile (Format.read_of_worsens hw hread), ← hitems hworse hread, h]

theorem toBatches_of_wrap {s : Scan} (h : (s.toBatches (i.wrap files)).result = .ok bs) :
    (s.toBatches files).result = .ok bs := by
  obtain ⟨tasks, bss, hplan, hitems, rfl⟩ := Scan.toBatches_eq_ok h
  have hresults : ScanTask.resultsOf files tasks = bss.flatten.map .ok := by
    clear h hplan
    induction hitems with
    | nil => rfl
    | @cons t bs tasks bss ht _ ih =>
      have hname : t.results files = bs.map .ok := by
        rw [ScanTask.results, items_of_wrap ht, List.map_map]
        rfl
      rw [ScanTask.resultsOf, List.flatMap_cons, hname, List.flatten_cons, List.map_append, ← ih]
      rfl
  rw [Scan.toBatches, Scan.gather_result hplan, hresults, ScanTask.collect_iff.2 rfl]
  rfl

end Injection

end TableScan
