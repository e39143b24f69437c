namespace TableScan.Arithmetic

scoped instance natPow : Pow Nat Nat := instPowNat

scoped instance intPow : Pow Int Nat := instPowNat

scoped instance natZero : Zero Nat := Zero.ofOfNat0

end TableScan.Arithmetic
