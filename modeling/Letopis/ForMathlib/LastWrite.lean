import Mathlib.Data.List.Basic
import Mathlib.Logic.Function.Basic

/-!
# Assignments in order

A store is a function from places to values, and assignments are carried out one after another. A
place has the value of the last assignment to it. If some of the assignments are left out, the store
is the same exactly if none of those makes a difference that is not written over later
(`assign_filter_eq_iff`).
-/

namespace LastWrite

open List

variable {S V α : Type} [DecidableEq S]

/-- Carry out assignments. -/
def assign (place : α → S) (value : α → V) (σ : S → V) (as : List α) : S → V :=
  as.foldl (fun σ a => Function.update σ (place a) (value a)) σ

variable {place : α → S} {value : α → V} {σ : S → V}

theorem assign_append (as bs : List α) :
    assign place value σ (as ++ bs) = assign place value (assign place value σ as) bs :=
  foldl_append

theorem assign_of_forall_ne {as : List α} {s : S} (h : ∀ a ∈ as, place a ≠ s) :
    assign place value σ as s = σ s := by
  induction as generalizing σ with
  | nil => rfl
  | cons a as ih =>
    obtain ⟨ha, has⟩ := forall_mem_cons.mp h
    exact (ih has).trans (Function.update_of_ne ha.symm _ _)

theorem assign_of_last {as bs : List α} {a : α} (h : ∀ b ∈ bs, place b ≠ place a) :
    assign place value σ (as ++ a :: bs) (place a) = value a := by
  rw [assign_append]
  exact (assign_of_forall_ne h).trans (Function.update_self ..)

/-- If there is an assignment to a place, there is a last one. -/
theorem exists_last {as : List α} {s : S} (h : ∃ a ∈ as, place a = s) :
    ∃ before a after, as = before ++ a :: after ∧ place a = s ∧ ∀ b ∈ after, place b ≠ s := by
  induction as with
  | nil => simp at h
  | cons a as ih =>
    by_cases hlater : ∃ b ∈ as, place b = s
    · obtain ⟨before, b, after, rfl, hb, hafter⟩ := ih hlater
      exact ⟨a :: before, b, after, rfl, hb, hafter⟩
    · obtain ⟨b, hb, hs⟩ := h
      obtain rfl | hb := mem_cons.mp hb
      · exact ⟨[], b, as, rfl, hs, fun c hc heq => hlater ⟨c, hc, heq⟩⟩
      · exact absurd ⟨b, hb, hs⟩ hlater

/-- An assignment that is left out and that no later one writes over. -/
def Lingers (place : α → S) (keep : α → Bool) (as : List α) (a : α) : Prop :=
  ∃ before after, as = before ++ a :: after ∧ keep a = false ∧ ∀ b ∈ after, place b ≠ place a

/-- Some assignments can be left out exactly if those that linger make no difference. -/
theorem assign_filter_eq_iff (keep : α → Bool) (as : List α) :
    assign place value σ as = assign place value σ (as.filter keep) ↔
      ∀ a, Lingers place keep as a → assign place value σ (as.filter keep) (place a) = value a := by
  constructor
  · rintro heq a ⟨before, after, hsplit, -, hafter⟩
    rw [← heq, hsplit, assign_of_last hafter]
  · intro h
    funext s
    by_cases hwritten : ∃ a ∈ as, place a = s
    · obtain ⟨before, a, after, hsplit, rfl, hafter⟩ := exists_last hwritten
      have hlast : assign place value σ as (place a) = value a := by
        rw [hsplit, assign_of_last hafter]
      rw [hlast]
      cases hkeep : keep a with
      | false => exact (h a ⟨before, after, hsplit, hkeep, hafter⟩).symm
      | true =>
        rw [hsplit, filter_append, filter_cons_of_pos hkeep,
          assign_of_last fun b hb => hafter b (mem_of_mem_filter hb)]
    · have hnone (a : α) (ha : a ∈ as) : place a ≠ s := fun heq => hwritten ⟨a, ha, heq⟩
      rw [assign_of_forall_ne hnone,
        assign_of_forall_ne fun a ha => hnone a (mem_of_mem_filter ha)]

end LastWrite
