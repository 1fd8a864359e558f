import Letopis.ForMathlib.Binary64
import Letopis.Rules.Meaning

/-!
# Numbers as operands

A field of an event is a text. The operand of `eq` or `ne` and the elements of the operand of `in`
can be numbers, which are compared as texts too: as `strconv.FormatFloat` writes them, in the
shortest general form. That form has an exponent from a million on, so a number as large as that is
never found in a field that holds its digits, and is found in one that holds the form with the
exponent (`number_operand_exact_iff`). The number `-0` is not found in a field that holds `0`.
-/

namespace Letopis

private theorem RuleField.ofName?_name (field : RuleField) :
    RuleField.ofName? field.name = some field := by
  cases field <;> decide

section Numbers

variable {F R : Type} {lib : Library F R}

/-- A leaf on a scalar field. -/
def leafOn (field : RuleField) (op : RuleOp) (v : Any F) : Condition F :=
  { field := field.name, op := op.name, value := v }

/-- An event with the same text in every field. -/
def eventOf (s : String) : EvalEvent := ⟨s, s, s, s, []⟩

private theorem scalarField_eventOf (s : String) (field : RuleField) :
    scalarField (eventOf s) field = s := by
  cases field <;> rfl

private theorem holds_opIn_insert (vs ws : List (Any F)) (v : Any F) (val : String) :
    RuleOp.opIn.holds lib (.slice (vs ++ v :: ws)) val = true ↔
      val ≠ "" ∧ val = toStr lib v ∨ RuleOp.opIn.holds lib (.slice (vs ++ ws)) val = true := by
  simp only [RuleOp.holds, Any.elements, List.any_append, List.any_cons, Bool.and_eq_true,
    Bool.or_eq_true, decide_eq_true_eq]
  rw [eq_comm]
  tauto

private theorem toString_ne_empty (n : ℤ) : toString n ≠ "" := by
  intro hempty
  have hlist := Binary64.toList_toString n
  rw [hempty] at hlist
  split_ifs at hlist
  · cases hlist
  · exact Nat.toDigits_ne_nil hlist.symm

private theorem eq_exact_iff_toStr (field : RuleField) (v : Any F) {t : String} (ht : t ≠ "") :
    (∀ e, RuleOp.opEq.holds lib v (scalarField e field) = true ↔ scalarField e field = t) ↔
      toStr lib v = t := by
  simp only [RuleOp.holds, Bool.and_eq_true, decide_eq_true_eq]
  constructor
  · intro h
    have ht' := (h (eventOf t)).mpr (scalarField_eventOf t field)
    rw [scalarField_eventOf] at ht'
    exact ht'.2.symm
  · rintro rfl e
    exact ⟨And.right, fun heq => ⟨heq ▸ ht, heq⟩⟩

/-- What an element adds to a list is one text only, which is that of the element. -/
theorem in_exact_iff_toStr (field : RuleField) (v : Any F) {t : String} (ht : t ≠ "") :
    (∀ vs ws e, RuleOp.opIn.holds lib (.slice (vs ++ v :: ws)) (scalarField e field) = true ↔
        scalarField e field = t ∨
          RuleOp.opIn.holds lib (.slice (vs ++ ws)) (scalarField e field) = true) ↔
      toStr lib v = t := by
  constructor
  · intro h
    have ht' := (h [] [] (eventOf t)).mpr (.inl (scalarField_eventOf t field))
    rw [scalarField_eventOf, holds_opIn_insert] at ht'
    obtain ⟨-, heq⟩ | hnil := ht'
    · exact heq.symm
    · simp [RuleOp.holds, Any.elements] at hnil
  · rintro rfl vs ws e
    rw [holds_opIn_insert]
    refine or_congr_left ⟨And.right, fun heq => ⟨heq ▸ ht, heq⟩⟩

private theorem holds_opNe (v : Any F) {val : String} (hval : val ≠ "") :
    RuleOp.opNe.holds lib v val = !RuleOp.opEq.holds lib v val := by
  simp [RuleOp.holds, hval]

end Numbers

/-- **Numbers as operands.** Let `fin` be the finite doubles among the values of the library, which
have texts as `strconv.FormatFloat` writes them. A whole number `n` as the operand of `eq` is found
in the fields that hold the decimal numeral of `n`, and in no others, exactly if it is below a
million and not the negative zero. So is what it adds as an element of the operand of `in`. Where
there is a text, `ne` is the complement of `eq`. -/
theorem number_operand_exact_iff {F R : Type} {lib : Library F R} {fin : Binary64 → F}
    (hformat : ∀ x, lib.formatFloat (fin x) = x.formatG) (field : RuleField) {x : Binary64} {n : ℤ}
    (hn : x.value = n) :
    ∃ eq ne, (leafOn field .opEq (.float (fin x))).compile lib = .ok eq ∧
      (leafOn field .opNe (.float (fin x))).compile lib = .ok ne ∧
      ((∀ e, eq.eval lib e = true ↔ scalarField e field = toString n) ↔
        n.natAbs < 10 ^ 6 ∧ ¬(x.neg = true ∧ n = 0)) ∧
      ((∀ vs ws, ∃ p q,
        (leafOn field .opIn (.slice (vs ++ .float (fin x) :: ws))).compile lib = .ok p ∧
          (leafOn field .opIn (.slice (vs ++ ws))).compile lib = .ok q ∧
          ∀ e, p.eval lib e = true ↔ scalarField e field = toString n ∨ q.eval lib e = true) ↔
        n.natAbs < 10 ^ 6 ∧ ¬(x.neg = true ∧ n = 0)) ∧
      ∀ e, scalarField e field ≠ "" → ne.eval lib e = !eq.eval lib e := by
  have hfield := RuleField.ofName?_name field
  have htext : toStr lib (.float (fin x)) = toString n ↔
      n.natAbs < 10 ^ 6 ∧ ¬(x.neg = true ∧ n = 0) := by
    rw [toStr, hformat, Binary64.formatG_eq_toString_iff hn]
  have ht := toString_ne_empty n
  have hleaf (op : RuleOp) {v : Any F} (htakes : op.Takes lib v) :
      ∃ p, (leafOn field op v).compile lib = .ok p ∧
        ∀ e, p.eval lib e = op.holds lib v (scalarField e field) :=
    Condition.exists_compile_leaf lib hfield htakes
  obtain ⟨eq, heq, hevalEq⟩ := hleaf .opEq (v := .float (fin x)) trivial
  obtain ⟨ne, hne, hevalNe⟩ := hleaf .opNe (v := .float (fin x)) trivial
  refine ⟨eq, ne, heq, hne, ?_, ?_, fun e he => ?_⟩
  · simp only [hevalEq]
    rw [eq_exact_iff_toStr field _ ht, htext]
  · rw [← htext, ← in_exact_iff_toStr field _ ht]
    refine forall₂_congr fun vs ws => ?_
    obtain ⟨p, hp, hevalP⟩ := hleaf .opIn ⟨vs ++ .float (fin x) :: ws, rfl⟩
    obtain ⟨q, hq, hevalQ⟩ := hleaf .opIn ⟨vs ++ ws, rfl⟩
    constructor
    · rintro ⟨p', q', hp', hq', h⟩ e
      cases hp.symm.trans hp'
      cases hq.symm.trans hq'
      rw [← hevalP, ← hevalQ]
      exact h e
    · intro h
      refine ⟨p, q, hp, hq, fun e => ?_⟩
      rw [hevalP, hevalQ]
      exact h e
  · rw [hevalEq, hevalNe, holds_opNe _ he]

section Samples

/-- The number 3. -/
def three : Binary64 :=
  ⟨false, 3 * 2 ^ 51, -51, by norm_num, by norm_num, by norm_num, .inr (by norm_num)⟩

/-- The number 1000000. -/
def million : Binary64 :=
  ⟨false, 15625 * 2 ^ 39, -33, by norm_num, by norm_num, by norm_num, .inr (by norm_num)⟩

/-- Finite doubles and their texts; every text is read as three. -/
def Library.ofDoubles : Library Binary64 String where
  number x := Number.ofInt ⌊x.value⌋
  ofInt _ := three
  formatFloat := Binary64.formatG
  parseFloat _ := some three
  less x y := x.value < y.value
  lessEq x y := x.value ≤ y.value
  quote := id
  compileRegexp := .ok
  matchString re s := re = s

/-- The operand 3. -/
theorem number_operand_exact_iff_three : ∃ p,
    (leafOn .fieldSource .opEq (.float three)).compile Library.ofDoubles = .ok p ∧
      ∀ e, p.eval Library.ofDoubles e = true ↔ e.source = toString (3 : ℤ) := by
  have hthree : three.value = (3 : ℤ) := by decide +kernel
  obtain ⟨p, -, hp, -, h, -⟩ := @number_operand_exact_iff Binary64 String Library.ofDoubles id
    (fun _ => rfl) .fieldSource three 3 hthree
  exact ⟨p, hp, h.mpr (by decide)⟩

/-- A million is not found in a field that holds its digits. -/
theorem million_not_found : million.value = (1000000 : ℤ) ∧ ∃ p,
    (leafOn .fieldEntityID .opEq (.float million)).compile Library.ofDoubles = .ok p ∧
      p.eval Library.ofDoubles (eventOf "1000000") = false ∧
      p.eval Library.ofDoubles (eventOf "1e+06") = true := by
  refine ⟨by decide +kernel, _, rfl, ?_⟩
  decide +kernel

end Samples

end Letopis
