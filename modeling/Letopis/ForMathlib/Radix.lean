import Mathlib.Data.List.Lex
import Mathlib.Data.Nat.Digits.Defs
import Mathlib.Data.Set.Function

/-!
# Numerals of a fixed length

Numerals here are lists of digits, the most significant digit first, so that the number a list
stands for is `Nat.ofDigits` of its reverse. Among numerals of one length the order of the numbers
is the lexicographic order of the lists (`ofDigits_reverse_lt_iff`). This is what makes an encoding
with a fixed number of digits sort like what it encodes, if the characters sort like the digits
(`map_lt_map_iff`).
-/

namespace Radix

open List

/-! ### The order of lists -/

/-- An injective map that keeps the order of the members of two lists keeps that of the lists. -/
theorem map_lt_map_iff {α β : Type*} [LT α] [LT β] {f : α → β} {s : Set α} (hinj : s.InjOn f)
    (hlt : ∀ a ∈ s, ∀ b ∈ s, f a < f b ↔ a < b) {l l' : List α} (hl : ∀ a ∈ l, a ∈ s)
    (hl' : ∀ a ∈ l', a ∈ s) : l.map f < l'.map f ↔ l < l' := by
  induction l generalizing l' with
  | nil => cases l' <;> simp
  | cons a l ih =>
    cases l' with
    | nil => simp
    | cons b l' =>
      obtain ⟨ha, hl⟩ := forall_mem_cons.mp hl
      obtain ⟨hb, hl'⟩ := forall_mem_cons.mp hl'
      rw [map_cons, map_cons, cons_lt_cons_iff, cons_lt_cons_iff, ih hl hl',
        hlt a ha b hb, hinj.eq_iff ha hb]

/-- The first parts decide if they differ and have one length. -/
theorem append_lt_append_of_lt {α : Type*} [LT α] {l l' : List α} (hlen : l.length = l'.length)
    (h : l < l') (r r' : List α) : l ++ r < l' ++ r' := by
  induction l generalizing l' with
  | nil =>
    rw [length_nil] at hlen
    rw [length_eq_zero_iff.mp hlen.symm] at h
    exact absurd h (not_lt_nil _)
  | cons a l ih =>
    cases l' with
    | nil => exact absurd h (not_lt_nil _)
    | cons b l' =>
      rw [cons_append, cons_append]
      rcases cons_lt_cons_iff.mp h with hab | ⟨rfl, hlt⟩
      · exact cons_lt_cons_iff.mpr (.inl hab)
      · exact cons_lt_cons_iff.mpr (.inr ⟨rfl, ih (Nat.succ.inj hlen) hlt⟩)

theorem append_lt_append_iff {α : Type*} [Preorder α] (l : List α) {r r' : List α} :
    l ++ r < l ++ r' ↔ r < r' := by
  induction l with
  | nil => rfl
  | cons a l ih =>
    rw [cons_append, cons_append, cons_lt_cons_iff, ih]
    simp

/-! ### The order of numerals -/

variable {b : ℕ} {ds es : List ℕ}

theorem ofDigits_reverse_cons (d : ℕ) (ds : List ℕ) :
    Nat.ofDigits b (d :: ds).reverse = b ^ ds.length * d + Nat.ofDigits b ds.reverse := by
  rw [reverse_cons, Nat.ofDigits_append, length_reverse, Nat.ofDigits_singleton, add_comm]

theorem ofDigits_reverse_lt (hb : 1 < b) (hds : ∀ d ∈ ds, d < b) :
    Nat.ofDigits b ds.reverse < b ^ ds.length := by
  rw [← length_reverse]
  exact Nat.ofDigits_lt_base_pow_length hb fun d hd => hds d (mem_reverse.mp hd)

/-- **Numerals of one length sort like their numbers.** -/
theorem ofDigits_reverse_lt_iff (hb : 1 < b) (hlen : ds.length = es.length)
    (hds : ∀ d ∈ ds, d < b) (hes : ∀ e ∈ es, e < b) :
    Nat.ofDigits b ds.reverse < Nat.ofDigits b es.reverse ↔ ds < es := by
  induction ds generalizing es with
  | nil =>
    rw [length_eq_zero_iff.mp hlen.symm]
    simp
  | cons d ds ih =>
    cases es with
    | nil => cases hlen
    | cons e es =>
      obtain ⟨-, hds⟩ := forall_mem_cons.mp hds
      obtain ⟨-, hes⟩ := forall_mem_cons.mp hes
      have hlen : ds.length = es.length := Nat.succ.inj hlen
      have hd := ofDigits_reverse_lt hb hds
      have he := ofDigits_reverse_lt hb hes
      rw [cons_lt_cons_iff, ← ih hlen hds hes, ofDigits_reverse_cons, ofDigits_reverse_cons,
        hlen]
      rw [hlen] at hd
      -- the first digits decide unless they agree, since what follows is less than one unit of them
      rcases lt_trichotomy d e with hlt | rfl | hgt
      · have hstep : b ^ es.length * d + b ^ es.length ≤ b ^ es.length * e := by
          rw [← Nat.mul_succ]
          exact Nat.mul_le_mul_left _ hlt
        exact iff_of_true (by omega) (.inl hlt)
      · simp
      · have hstep : b ^ es.length * e + b ^ es.length ≤ b ^ es.length * d := by
          rw [← Nat.mul_succ]
          exact Nat.mul_le_mul_left _ hgt
        exact iff_of_false (by omega) (by omega)

/-! ### The digits of a number -/

/-- The last `n` digits of a number. -/
def digits (b : ℕ) : ℕ → ℕ → List ℕ
  | 0, _ => []
  | n + 1, v => digits b n (v / b) ++ [v % b]

@[simp] theorem length_digits (b n v : ℕ) : (digits b n v).length = n := by
  induction n generalizing v with
  | zero => rfl
  | succ n ih => rw [digits, length_append, ih, length_singleton]

theorem lt_of_mem_digits (hb : 0 < b) {n v d : ℕ} (h : d ∈ digits b n v) : d < b := by
  induction n generalizing v with
  | zero => exact absurd h not_mem_nil
  | succ n ih =>
    rcases mem_append.mp h with h | h
    · exact ih h
    · rw [mem_singleton.mp h]
      exact Nat.mod_lt v hb

/-- The number is what its digits stand for, if there are enough of them. -/
theorem ofDigits_reverse_digits {n v : ℕ} (h : v < b ^ n) :
    Nat.ofDigits b (digits b n v).reverse = v := by
  induction n generalizing v with
  | zero =>
    rw [pow_zero, Nat.lt_one_iff] at h
    rw [h]
    rfl
  | succ n ih =>
    have hdiv : v / b < b ^ n := Nat.div_lt_of_lt_mul (by rwa [pow_succ'] at h)
    rw [digits, reverse_concat, Nat.ofDigits_cons, ih hdiv]
    exact Nat.mod_add_div v b

end Radix
