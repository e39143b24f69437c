import Mathlib.Data.List.TakeWhile
import TableScan.CommandLine.Filter
import TableScan.Proofs.Partitions
import TableScan.Proofs.Typing

namespace TableScan

namespace Text

theorem trim_blanks_append {blanks : List Char} (h : ∀ c ∈ blanks, isBlank c) (cs : List Char) :
    trim (String.ofList (blanks ++ cs)) = trim (String.ofList cs) := by
  simp only [trim, String.toList_ofList, dropBlanks, List.dropWhile_append_of_pos h]

theorem trim_append_blanks {blanks : List Char} (h : ∀ c ∈ blanks, isBlank c) (cs : List Char) :
    trim (String.ofList (cs ++ blanks)) = trim (String.ofList cs) := by
  have hreverse : ∀ c ∈ blanks.reverse, isBlank c := fun c hc => h c (List.mem_reverse.1 hc)
  simp only [trim, String.toList_ofList]
  by_cases hcs : dropBlanks cs = []
  · have hall : dropBlanks (cs ++ blanks) = [] :=
      List.dropWhile_eq_nil_iff.2 (List.forall_mem_append.2 ⟨List.dropWhile_eq_nil_iff.1 hcs, h⟩)
    rw [hcs, hall]
  · have hkept : dropBlanks (cs ++ blanks) = dropBlanks cs ++ blanks := by
      have hne : ¬(cs.dropWhile isBlank).isEmpty := mt List.isEmpty_iff.1 hcs
      rw [dropBlanks, List.dropWhile_append, if_neg hne]
      rfl
    rw [hkept, List.reverse_append, dropBlanks, List.dropWhile_append_of_pos hreverse]
    rfl

end Text

namespace Expr.HasType

variable {permitted : DataType → DataType → Prop} {s : Schema} {es : List Expr}

theorem foldl_and {e : Expr} (he : HasType permitted s e .boolean)
    (h : ∀ e ∈ es, HasType permitted s e .boolean) :
    HasType permitted s (es.foldl Expr.and e) .boolean := by
  induction es generalizing e with
  | nil => exact he
  | cons e' es ih =>
    rw [List.forall_mem_cons] at h
    exact ih (.and he h.1 rfl rfl) h.2

theorem all (h : ∀ e ∈ es, HasType permitted s e .boolean) :
    HasType permitted s (Expr.all es) .boolean := by
  cases es with
  | nil => exact .lit (.ofBool true)
  | cons e es =>
    rw [List.forall_mem_cons] at h
    exact foldl_and h.1 h.2

end Expr.HasType

namespace CommandLine

def symbols : List (String × Comparison) :=
  [(">=", .ge), ("<=", .le), ("!=", .ne), ("==", .eq), ("=", .eq), ("<", .lt), (">", .gt)]

/-- A symbol of an operator in a text, between what stands before it and behind it. -/
structure Stands (cs before : List Char) (symbol : String) (op : Comparison)
    (behind : List Char) : Prop where
  known : (symbol, op) ∈ symbols
  text : cs = before ++ (symbol.toList ++ behind)

/-- The first of all symbols in a text, and of those that stand there the longest. -/
structure First (cs before : List Char) (symbol : String) (op : Comparison)
    (behind : List Char) : Prop extends Stands cs before symbol op behind where
  first : ∀ before' symbol' op' behind', Stands cs before' symbol' op' behind' →
    before.length < before'.length ∨ before.length = before'.length ∧ symbol'.length ≤ symbol.length

variable {cs before behind : List Char} {symbol : String} {op : Comparison}

theorem length_of_mem_symbols (h : (symbol, op) ∈ symbols) :
    symbol.length = 1 ∨ symbol.length = 2 ∧ symbol.toList[1]? = some '=' := by
  have hall : ∀ so ∈ symbols, so.1.length = 1 ∨ so.1.length = 2 ∧ so.1.toList[1]? = some '=' := by
    decide
  exact hall (symbol, op) h

theorem first_of_stands (h : Stands cs [] symbol op behind)
    (hlonger : symbol.length = 1 → behind.head? ≠ some '=') :
    First cs [] symbol op behind where
  toStands := h
  first := by
    rintro before symbol' op' behind' ⟨hknown', htext'⟩
    cases before with
    | cons c before => exact .inl (Nat.zero_lt_succ _)
    | nil =>
      refine .inr ⟨rfl, ?_⟩
      rcases length_of_mem_symbols hknown' with hlength' | ⟨hlength', hequals⟩
      · rcases length_of_mem_symbols h.known with hlength | ⟨hlength, -⟩ <;> omega
      · rcases length_of_mem_symbols h.known with hlength | ⟨hlength, -⟩
        · -- a longer one would need an equals sign behind the shorter one
          exfalso
          apply hlonger hlength
          have hsame : symbol.toList ++ behind = symbol'.toList ++ behind' :=
            h.text.symm.trans htext'
          have hat := congrArg (·[1]?) hsame
          rw [← String.length_toList] at hlength hlength'
          rw [List.getElem?_append_right hlength.le, List.getElem?_append_left (by omega), hequals,
            hlength] at hat
          rw [← hat, List.head?_eq_getElem?]
        · omega

theorem first_of_operator? (h : operator? cs = some (op, behind)) :
    ∃ symbol, First cs [] symbol op behind := by
  have single (hne : ∀ rest, behind = '=' :: rest → False) : behind.head? ≠ some '=' := by
    intro hhead
    obtain ⟨rest, hrest⟩ := List.head?_eq_some_iff.1 hhead
    exact hne rest hrest
  unfold operator? at h
  split at h <;> cases h
  · exact ⟨">=", first_of_stands ⟨by decide, rfl⟩ fun h => absurd h (by decide)⟩
  · exact ⟨"<=", first_of_stands ⟨by decide, rfl⟩ fun h => absurd h (by decide)⟩
  · exact ⟨"!=", first_of_stands ⟨by decide, rfl⟩ fun h => absurd h (by decide)⟩
  · exact ⟨"==", first_of_stands ⟨by decide, rfl⟩ fun h => absurd h (by decide)⟩
  · exact ⟨"=", first_of_stands ⟨by decide, rfl⟩ fun _ => single (by assumption)⟩
  · exact ⟨"<", first_of_stands ⟨by decide, rfl⟩ fun _ => single (by assumption)⟩
  · exact ⟨">", first_of_stands ⟨by decide, rfl⟩ fun _ => single (by assumption)⟩

theorem not_stands_of_operator? (h : operator? cs = none) : ¬Stands cs [] symbol op behind := by
  rintro ⟨hknown, rfl⟩
  simp only [symbols, List.mem_cons, Prod.mk.injEq, List.not_mem_nil, or_false] at hknown
  unfold operator? at h
  split at h <;> cases h
  rename_i hge hle hne heq hassign hlt hgt
  rcases hknown with ⟨rfl, -⟩ | ⟨rfl, -⟩ | ⟨rfl, -⟩ | ⟨rfl, -⟩ | ⟨rfl, -⟩ | ⟨rfl, -⟩ | ⟨rfl, -⟩
  · exact hge behind rfl
  · exact hle behind rfl
  · exact hne behind rfl
  · exact heq behind rfl
  · exact hassign behind rfl
  · exact hlt behind rfl
  · exact hgt behind rfl

theorem First.cons {c : Char} (h : First cs before symbol op behind)
    (hfront : ∀ symbol op behind, ¬Stands (c :: cs) [] symbol op behind) :
    First (c :: cs) (c :: before) symbol op behind where
  known := h.known
  text := congrArg (c :: ·) h.text
  first := by
    rintro (_ | ⟨c', before'⟩) symbol' op' behind' h'
    · exact absurd h' (hfront symbol' op' behind')
    · simpa using h.first before' symbol' op' behind' ⟨h'.known, (List.cons.inj h'.text).2⟩

theorem first_of_splitOperator? (h : splitOperator? cs = some (before, op, behind)) :
    ∃ symbol, First cs before symbol op behind := by
  induction cs generalizing before with
  | nil => cases h
  | cons c cs ih =>
    unfold splitOperator? at h
    split at h
    · rename_i hfront
      cases h
      exact first_of_operator? hfront
    · rename_i hfront
      obtain ⟨⟨rest, op', behind'⟩, hrest, hsplit⟩ := Option.map_eq_some_iff.1 h
      cases hsplit
      obtain ⟨symbol, hfirst⟩ := ih hrest
      exact ⟨symbol, hfirst.cons fun _ _ _ => not_stands_of_operator? hfront⟩

theorem not_stands_of_splitOperator? (h : splitOperator? cs = none) :
    ¬Stands cs before symbol op behind := by
  induction cs generalizing before with
  | nil =>
    rintro ⟨hknown, htext⟩
    have hempty := List.append_eq_nil_iff.1 (List.append_eq_nil_iff.1 htext.symm).2
    rcases length_of_mem_symbols hknown with hlength | ⟨hlength, -⟩ <;>
      simp [← String.length_toList, hempty.1] at hlength
  | cons c cs ih =>
    unfold splitOperator? at h
    split at h
    · cases h
    · rename_i hfront
      rw [Option.map_eq_none_iff] at h
      cases before with
      | nil => exact not_stands_of_operator? hfront
      | cons c' before =>
        rintro ⟨hknown, htext⟩
        exact ih h ⟨hknown, (List.cons.inj htext).2⟩

theorem First.unique {before' behind' : List Char} {symbol' : String} {op' : Comparison}
    (h : First cs before symbol op behind) (h' : First cs before' symbol' op' behind') :
    before = before' ∧ op = op' ∧ behind = behind' := by
  have hsame := h.text.symm.trans h'.text
  have hlengths : before.length = before'.length ∧ symbol.length = symbol'.length := by
    have := h.first _ _ _ _ h'.toStands
    have := h'.first _ _ _ _ h.toStands
    omega
  obtain ⟨rfl, hrest⟩ := List.append_inj hsame hlengths.1
  obtain ⟨hsymbol, rfl⟩ :=
    List.append_inj hrest (by rw [String.length_toList, String.length_toList, hlengths.2])
  obtain rfl := String.toList_inj.1 hsymbol
  have hop : ∀ so ∈ symbols, ∀ so' ∈ symbols, so.1 = so'.1 → so.2 = so'.2 := by decide
  exact ⟨rfl, hop _ h.known _ h'.known rfl, rfl⟩

theorem splitOperator?_eq_some :
    splitOperator? cs = some (before, op, behind) ↔ ∃ symbol, First cs before symbol op behind := by
  constructor
  · exact first_of_splitOperator?
  · rintro ⟨symbol, h⟩
    cases hsplit : splitOperator? cs with
    | none => exact absurd h.toStands (not_stands_of_splitOperator? hsplit)
    | some parts =>
      obtain ⟨before', op', behind'⟩ := parts
      obtain ⟨symbol', h'⟩ := first_of_splitOperator? hsplit
      obtain ⟨rfl, rfl, rfl⟩ := h.unique h'
      rfl

example : splitOperator? "a!b<=c!=d".toList = some ("a!b".toList, .le, "c!=d".toList) := by decide

def marks : List Char := ['<', '>', '=', '!']

theorem not_stands_of_not_mem_marks {c : Char} (h : c ∉ marks) :
    ¬Stands (c :: cs) [] symbol op behind := by
  rintro ⟨hknown, htext⟩
  have hall : ∀ so ∈ symbols, so.1.toList.head? ∈ marks.map some := by decide
  obtain ⟨m, hm, hhead⟩ := List.mem_map.1 (hall (symbol, op) hknown)
  obtain ⟨rest, hrest⟩ := List.head?_eq_some_iff.1 hhead.symm
  dsimp only at hrest
  rw [hrest] at htext
  exact h ((List.cons.inj htext).1 ▸ hm)

theorem first_of_not_mem_marks (hbefore : ∀ c ∈ before, c ∉ marks) (hknown : (symbol, op) ∈ symbols)
    (hlonger : symbol.length = 1 → behind.head? ≠ some '=') :
    First (before ++ (symbol.toList ++ behind)) before symbol op behind := by
  induction before with
  | nil => exact first_of_stands ⟨hknown, rfl⟩ hlonger
  | cons c before ih =>
    rw [List.forall_mem_cons] at hbefore
    exact (ih hbefore.2).cons fun _ _ _ => not_stands_of_not_mem_marks hbefore.1

theorem not_mem_marks_of_isBlank {c : Char} (h : Text.isBlank c) : c ∉ marks := by
  have hmarks : marks.all (!Text.isBlank ·) := by decide
  intro hm
  have hnot := List.all_eq_true.1 hmarks c hm
  rw [h] at hnot
  cases hnot

variable {s : Schema}

theorem of_parseComparison {text : String} {e : Expr} (h : parseComparison s text = .ok e) :
    ∃ op name f t v, s.field? name = some f ∧ Scalar.parse f.type t = .ok v ∧
      e = .compare op (.field name) (.lit v) := by
  unfold parseComparison at h
  split at h
  · cases h
  · rename_i left op right _
    dsimp only at h
    split at h
    · cases h
    · rename_i f hf
      split at h
      · rename_i v hv
        cases h
        exact ⟨op, _, f, _, v, hf, hv, rfl⟩
      · cases h

theorem typeIn_parseFilters {texts : List String} {e : Expr} (h : parseFilters s texts = .ok e) :
    e.typeIn s = .ok .boolean := by
  obtain ⟨es, hes, h⟩ := bind_eq_ok.1 h
  cases h
  refine Expr.typeIn_eq_ok.2 (.all fun e he => ?_)
  obtain ⟨text, -, htext⟩ := forall₂_mem (mapM_eq_ok.1 hes) he
  obtain ⟨op, name, f, t, v, hf, hv, rfl⟩ := of_parseComparison htext
  refine .compare (.field hf) (.lit v) ?_
  rw [(Scalar.isRead_of_parse hv).typed, comparisonType, DataType.plain_plain, if_pos rfl]
  rfl

/--
A column, a symbol and a value, with blanks around the symbol, are read as the comparison of the
column by the operator with what the value is read as under the column's type, and are refused just
if the value cannot be read. The column has no blanks at its ends and no marks in it; the value is
any text, except that no equals sign may follow a symbol of one character. All filters that are read
make up a condition.
-/
theorem parseComparison_concat (s : Schema) :
    (∀ (f : Field) (name before symbol behind value : String) (op : Comparison),
      s.field? name = some f →
      Text.trim name = name → (∀ c ∈ name.toList, c ∉ marks) → (symbol, op) ∈ symbols →
      (∀ c ∈ before.toList, Text.isBlank c) → (∀ c ∈ behind.toList, Text.isBlank c) →
      (symbol.length = 1 → (behind ++ value).toList.head? ≠ some '=') →
      parseComparison s (name ++ before ++ symbol ++ behind ++ value) =
        match Scalar.parse f.type (Text.trim value) with
        | .ok v => .ok (.compare op (.field name) (.lit v))
        | .error e => .error ((Report.ofFailure e).within
          ("invalid value in filter '" ++ (name ++ before ++ symbol ++ behind ++ value) ++ "'"))) ∧
    ∀ texts e, parseFilters s texts = .ok e → e.typeIn s = .ok .boolean := by
  refine ⟨?_, fun _ _ => typeIn_parseFilters⟩
  intro f name before symbol behind value op hf htrim hname hsymbol hbefore hbehind hvalue
  have hunmarked : ∀ c ∈ name.toList ++ before.toList, c ∉ marks :=
    List.forall_mem_append.2 ⟨hname, fun c hc => not_mem_marks_of_isBlank (hbefore c hc)⟩
  have hsplit : splitOperator? (name ++ before ++ symbol ++ behind ++ value).toList =
      some (name.toList ++ before.toList, op, behind.toList ++ value.toList) := by
    refine splitOperator?_eq_some.2 ⟨symbol, ?_⟩
    simp only [String.toList_append, List.append_assoc] at hvalue ⊢
    rw [← List.append_assoc]
    exact first_of_not_mem_marks hunmarked hsymbol hvalue
  have hleft : Text.trim (String.ofList (name.toList ++ before.toList)) = name := by
    rw [Text.trim_append_blanks hbefore, String.ofList_toList, htrim]
  have hright : Text.trim (String.ofList (behind.toList ++ value.toList)) = Text.trim value := by
    rw [Text.trim_blanks_append hbehind, String.ofList_toList]
  unfold parseComparison
  cases hparse : Scalar.parse f.type (Text.trim value) <;>
    simp only [hsplit, hleft, hright, hf, hparse]

theorem parseComparison_concat_marked :
    let s : Schema := [⟨"id", .int .int64, false, .empty⟩, ⟨"region", .utf8, true, .empty⟩]
    let text := "region" ++ "\t" ++ ">" ++ "  " ++ "=a<=b==c "
    let e := Expr.compare .gt (.field "region") (.lit (.ofText "=a<=b==c"))
    parseComparison s text = .ok e ∧ parseFilters s [text] = .ok e ∧ e.typeIn s = .ok .boolean := by
  intro s text e
  obtain ⟨hread, htyped⟩ := parseComparison_concat s
  have hvalue : Text.trim "=a<=b==c " = "=a<=b==c" := by decide +kernel
  have h := hread ⟨"region", .utf8, true, .empty⟩ "region" "\t" ">" "  " "=a<=b==c " .gt rfl
    (by decide +kernel)
    (by simp [marks]) (by decide) (by simp [Text.isBlank]) (by simp [Text.isBlank]) (by decide)
  rw [hvalue] at h
  have hfilters : parseFilters s [text] = .ok e := by
    rw [parseFilters, List.mapM_cons, h]
    rfl
  exact ⟨h, hfilters, htyped [text] e hfilters⟩

end CommandLine

end TableScan
