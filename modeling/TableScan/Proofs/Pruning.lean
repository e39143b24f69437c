import TableScan.Proofs.Gluing
import TableScan.Proofs.Literals
import TableScan.Proofs.ScanStatistics

namespace TableScan

open Statistics (isQuiet_of_ranged)
open Value (ofScalar)

namespace RowGroup

variable {g : RowGroup} {o : ParquetOptions} {n : String} {i : Nat} {x : Value}

end RowGroup

namespace Expr

variable {b : Batch} {facts : String → Facts} {e s : Expr} {v : Operand} {m : List (Option Bool)}

theorem Left.not_true (h : Left b facts e s v) (hs : s.isSatisfiable = false)
    (hm : e.mask b = .ok m) (i : Nat) :
    m[i]? ≠ some (some true) := by
  intro hi
  have hrow (a : Scalar) : (Expr.lit a).truth? (fun _ => none) = (ofScalar a).truth? := rfl
  have hlit := not_true_of_unsatisfiable (ρ := fun _ => none) hs
  cases s with
  | lit a =>
    obtain ⟨w, hw, hts⟩ := bind_eq_ok.1 hm
    cases h.value.symm.trans hw
    have hlt : i < b.rows := (h.fills.truths hts) ▸ (List.getElem?_eq_some_iff.1 hi).1
    obtain ⟨t, ht, htruth⟩ := Operand.truths_getElem? hts hlt ((h.lit a rfl).same i hlt)
    cases hi.symm.trans ht
    exact hlit htruth
  | _ => cases hs

end Expr

namespace Batch

variable {b : Batch} {e : Expr} {m : List (Option Bool)}

end Batch

namespace RowGroup

variable {g : RowGroup} {o : ParquetOptions} {e : Expr}

end RowGroup

namespace ParquetFile

variable {f : ParquetFile} {file : OpenFile} {o : ParquetOptions} {size : Nat} {e : Expr}
  {bs₀ : List Batch}

section Tables

def integers {t : IntType} (cells : List (Option (Fixed t))) : Batch where
  rows := cells.length
  columns := [⟨"x", true, ⟨.int t, cells⟩, .empty⟩]
  sized := by simp [Column.length]

end Tables

end ParquetFile

end TableScan
