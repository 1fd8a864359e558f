import Mathlib.Data.List.Basic
import Mathlib.Data.List.Nodup

/-!
# Runs of fallible operations on separate parts

A state has parts, and every operation reads and writes one of them. Then a run can be taken
apart: it fails exactly where the operations on some part fail, and otherwise leaves every part
as the operations on that part leave it, whatever the order in which operations on different
parts meet.
-/

namespace SeparateParts

open List

variable {σ γ ω ι ε : Type} [DecidableEq ι]

/-- One operation, seen from the part it works on: the operation on the part decides whether it
fails, and nothing else changes. -/
def Separate (step : σ → ω → Except ε σ) (partStep : γ → ω → Except ε γ) (part : ω → ι)
    (get : σ → ι → γ) (inv : σ → Prop) (op : ω) : Prop :=
  ∀ s, inv s →
    (∀ e, partStep (get s (part op)) op = .error e → step s op = .error e) ∧
    ∀ c, partStep (get s (part op)) op = .ok c → ∃ s', step s op = .ok s' ∧ inv s' ∧
      get s' (part op) = c ∧ ∀ i ≠ part op, get s' i = get s i

variable {step : σ → ω → Except ε σ} {partStep : γ → ω → Except ε γ} {part : ω → ι}
  {get : σ → ι → γ} {inv : σ → Prop}

/-- **Runs on separate parts.** A run fails as the operations on some part do, or leaves every
part as the operations on it do. -/
theorem run_cases {ops : List ω} (h : ∀ op ∈ ops, Separate step partStep part get inv op) {s : σ}
    (hs : inv s) :
    (∃ e i, ops.foldlM step s = .error e ∧
      (ops.filter fun op => part op = i).foldlM partStep (get s i) = .error e) ∨
    ∃ s', ops.foldlM step s = .ok s' ∧ inv s' ∧
      ∀ i, (ops.filter fun op => part op = i).foldlM partStep (get s i) = .ok (get s' i) := by
  induction ops generalizing s with
  | nil => exact .inr ⟨s, rfl, hs, fun i => rfl⟩
  | cons op ops ih =>
    obtain ⟨hop, hops⟩ := forall_mem_cons.mp h
    obtain ⟨hfail, hdone⟩ := hop s hs
    cases hpart : partStep (get s (part op)) op with
    | error e =>
      refine .inl ⟨e, part op, ?_, ?_⟩
      · rw [foldlM_cons, hfail e hpart]
        rfl
      · rw [filter_cons_of_pos (by simp), foldlM_cons, hpart]
        rfl
    | ok c =>
      obtain ⟨s', hstep, hs', hself, hothers⟩ := hdone c hpart
      have hrun : (op :: ops).foldlM step s = ops.foldlM step s' := by
        rw [foldlM_cons, hstep]
        rfl
      -- the first operation is the first one on its part, and none on the others
      have hparts : ∀ i, ((op :: ops).filter fun op => part op = i).foldlM partStep (get s i) =
          (ops.filter fun op => part op = i).foldlM partStep (get s' i) := by
        intro i
        by_cases hi : part op = i
        · subst hi
          rw [filter_cons_of_pos (by simp), foldlM_cons, hpart, hself]
          rfl
        · rw [filter_cons_of_neg (by simpa using hi), hothers i (Ne.symm hi)]
      rw [hrun]
      simp only [hparts]
      exact ih hops hs'

/-- The operations on one part, out of a list that takes the parts one after another. -/
theorem filter_flatMap {parts : List ι} (hnodup : parts.Nodup) {f : ι → List ω}
    (hf : ∀ i ∈ parts, ∀ op ∈ f i, part op = i) (i : ι) :
    (parts.flatMap f).filter (fun op => part op = i) = if i ∈ parts then f i else [] := by
  induction parts with
  | nil => rfl
  | cons j parts ih =>
    obtain ⟨hj, hnodup⟩ := nodup_cons.mp hnodup
    obtain ⟨hfj, hf⟩ := forall_mem_cons.mp hf
    rw [flatMap_cons, filter_append, ih hnodup hf]
    by_cases hij : i = j
    · subst hij
      have hall : (f i).filter (fun op => part op = i) = f i :=
        filter_eq_self.mpr fun op hop => by simpa using hfj op hop
      rw [hall, if_neg hj, if_pos mem_cons_self, append_nil]
    · have hnone : (f j).filter (fun op => part op = i) = [] :=
        filter_eq_nil_iff.mpr fun op hop => by simpa [hfj op hop] using Ne.symm hij
      rw [hnone, nil_append]
      simp [hij]

end SeparateParts
