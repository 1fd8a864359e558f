import Mathlib.Data.List.Sort
import Mathlib.Data.Prod.Lex

/-!
# Paging through a listing

A listing is handed out in pages. Each page may come with a cursor, by which the next one is asked
for; the first page without a cursor is the last one (`Paging.walk`). If every cursor stands for
what is left of the listing (`Paging.Serves`), the pages put together are the listing.

The listings here are ascending by a key that no two items share. What is left after a key can be
found by skipping as well as by filtering, and what is left after the last item of a page is what
follows the page.
-/

namespace Paging

open List

variable {α κ ρ : Type}

/-! ### Page after page -/

/-- All pages from a cursor on, in at most `fuel` requests; `none` if these do not do. -/
def walk (fetch : Option ρ → List α × Option ρ) : Nat → Option ρ → Option (List (List α))
  | 0, _ => none
  | fuel + 1, c =>
    match (fetch c).2 with
    | none => some [(fetch c).1]
    | some c' => (walk fetch fuel (some c')).map fun pages => (fetch c).1 :: pages

/-- A page is the beginning of what is left, and its cursor stands for the rest. -/
structure Serves (fetch : Option ρ → List α × Option ρ) (rest : Option ρ → List α) (limit : Nat) :
    Prop where
  /-- A page is cut off at the limit. -/
  page : ∀ c, (fetch c).1 = (rest c).take limit
  /-- The last page is all that is left. -/
  last : ∀ c, (fetch c).2 = none → (rest c).length ≤ limit
  /-- The cursor stands for what follows the page. -/
  next : ∀ c c', (fetch c).2 = some c' → rest c ≠ [] ∧ rest (some c') = (rest c).drop limit

/-- **The pages are the listing.** -/
theorem Serves.exists_walk {fetch : Option ρ → List α × Option ρ} {rest : Option ρ → List α}
    {limit : Nat} (h : Serves fetch rest limit) (hlimit : 0 < limit) (c : Option ρ) :
    ∃ pages, (∀ fuel, (rest c).length < fuel → walk fetch fuel c = some pages) ∧
      pages.flatten = rest c ∧ ∀ page ∈ pages, page.length ≤ limit := by
  -- what is left gets shorter with every page that has a cursor
  generalize hn : (rest c).length = n
  induction n using Nat.strong_induction_on generalizing c with
  | _ n ih =>
    have hpage := h.page c
    have hlen : (fetch c).1.length ≤ limit := by
      rw [hpage]
      exact length_take_le limit _
    rcases hc : (fetch c).2 with _ | c'
    · refine ⟨[(fetch c).1], fun fuel hfuel => ?_, ?_, ?_⟩
      · obtain ⟨fuel, rfl⟩ := Nat.exists_eq_add_of_lt hfuel
        simp [walk, hc]
      · rw [flatten_singleton, hpage, take_of_length_le (h.last c hc)]
      · exact forall_mem_singleton.mpr hlen
    · obtain ⟨hne, hrest⟩ := h.next c c' hc
      have hpos : 0 < (rest c).length := length_pos_of_ne_nil hne
      have hdrop : (rest (some c')).length = n - limit := by rw [hrest, length_drop, hn]
      obtain ⟨pages, hwalk, hflat, hlens⟩ := ih (n - limit) (by omega) (some c') hdrop
      refine ⟨(fetch c).1 :: pages, fun fuel hfuel => ?_, ?_, ?_⟩
      · obtain ⟨fuel, rfl⟩ : ∃ k, fuel = k + 1 := ⟨fuel - 1, by omega⟩
        have htail := hwalk fuel (by omega)
        simp [walk, hc, htail]
      · rw [flatten_cons, hflat, hpage, hrest, take_append_drop]
      · exact forall_mem_cons.mpr ⟨hlen, hlens⟩

/-! ### Ascending listings -/

variable [LinearOrder κ] (key : α → κ)

/-- Each item has a greater key than those before it. -/
def Ascending (l : List α) : Prop := l.Pairwise fun a b => key a < key b

variable {key} {l m : List α}

theorem Ascending.filter (h : Ascending key l) (p : α → Bool) : Ascending key (l.filter p) :=
  List.Pairwise.filter p h

theorem Ascending.eq_of_perm (hl : Ascending key l) (hm : Ascending key m) (h : l.Perm m) :
    l = m :=
  h.eq_of_pairwise (fun _ _ _ _ hab hba => absurd hba hab.asymm) hl hm

theorem ascending_insertionSort {r : α → α → Prop} [DecidableRel r]
    (hr : ∀ a b, r a b ↔ key a ≤ key b) (hl : (l.map key).Nodup) :
    Ascending key (l.insertionSort r) := by
  have hsorted : (l.insertionSort r).Pairwise r := by
    have : Std.Total r := ⟨fun a b => by simpa only [hr] using le_total (key a) (key b)⟩
    have : IsTrans α r := ⟨fun a b c hab hbc => by
      rw [hr] at hab hbc ⊢
      exact hab.trans hbc⟩
    exact pairwise_insertionSort r l
  have hnodup : ((l.insertionSort r).map key).Nodup :=
    ((perm_insertionSort r l).map key).nodup_iff.mpr hl
  refine (hsorted.and (pairwise_map.mp hnodup)).imp fun {a b} hab => ?_
  exact lt_of_le_of_ne ((hr a b).mp hab.1) hab.2

/-- Choosing items and sorting them is sorting all and then choosing. -/
theorem insertionSort_filter {r : α → α → Prop} [DecidableRel r]
    (hr : ∀ a b, r a b ↔ key a ≤ key b) (hl : (l.map key).Nodup) (p : α → Bool) :
    (l.filter p).insertionSort r = (l.insertionSort r).filter p := by
  have hsub : ((l.filter p).map key).Nodup := hl.sublist (filter_sublist.map key)
  refine (ascending_insertionSort hr hsub).eq_of_perm
    ((ascending_insertionSort hr hl).filter p) ?_
  exact (perm_insertionSort r _).trans ((perm_insertionSort r l).filter p).symm

/-- What comes after a key is found by skipping what does not. -/
theorem Ascending.dropWhile_eq_filter (h : Ascending key l) (k : κ) :
    (l.dropWhile fun a => !decide (k < key a)) = l.filter fun a => k < key a := by
  induction l with
  | nil => rfl
  | cons a l ih =>
    obtain ⟨ha, hl⟩ := pairwise_cons.mp h
    by_cases hk : k < key a
    · have hall : ∀ b ∈ a :: l, decide (k < key b) = true := by
        rw [forall_mem_cons]
        exact ⟨decide_eq_true hk, fun b hb => decide_eq_true (hk.trans (ha b hb))⟩
      rw [filter_eq_self.mpr hall, dropWhile_cons_of_neg (by simpa using hk)]
    · rw [dropWhile_cons_of_pos (by simpa using hk),
        filter_cons_of_neg (by simpa using hk),
        ih hl]

/-- What comes after the item at a position is what follows the position. -/
theorem Ascending.filter_lt_getElem (h : Ascending key l) {n : Nat} {x : α}
    (hx : l[n]? = some x) : (l.filter fun a => key x < key a) = l.drop (n + 1) := by
  induction l generalizing n with
  | nil => simp at hx
  | cons a l ih =>
    obtain ⟨ha, hl⟩ := pairwise_cons.mp h
    cases n with
    | zero =>
      obtain rfl : a = x := by simpa using hx
      have hall : ∀ b ∈ l, decide (key a < key b) = true := fun b hb => decide_eq_true (ha b hb)
      rw [filter_cons_of_neg (by simp), filter_eq_self.mpr hall]
      rfl
    | succ n =>
      have hx : l[n]? = some x := by simpa using hx
      have hlt : key a < key x := ha x (mem_of_getElem? hx)
      rw [filter_cons_of_neg (by simpa using hlt.le), ih hl hx]
      rfl

/-- What comes after the item at a position of what comes after a key. -/
theorem Ascending.filter_lt_of_filter (h : Ascending key l) {k : κ} {n : Nat} {x : α}
    (hx : (l.filter fun a => k < key a)[n]? = some x) :
    (l.filter fun a => key x < key a) = (l.filter fun a => k < key a).drop (n + 1) := by
  have hk : k < key x := by
    simpa using (mem_filter.mp (mem_of_getElem? hx)).2
  rw [← (h.filter fun a => k < key a).filter_lt_getElem hx, filter_filter]
  refine filter_congr fun a _ => ?_
  by_cases ha : key x < key a
  · simp [ha, hk.trans ha]
  · simp [ha]

end Paging
