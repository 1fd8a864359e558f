import Mathlib.Data.List.Basic
import Mathlib.Order.Lattice

/-!
# Association lists sorted by key

A finite map is held as the list of its entries in strictly increasing key order. The
representation is canonical, so equality of maps is equality of lists, and iterating over a
map in key order is iterating over the list. Lookup is the core `List.lookup`; this module
adds insertion and removal, and says what they do to a list that is split around the key,
which is the form in which a walk over a map in key order meets them.
-/

namespace SortedAssoc

open List

variable {κ ν : Type} [LinearOrder κ]

/-- The keys are strictly increasing. -/
def Sorted (l : List (κ × ν)) : Prop := l.Pairwise fun p q => p.1 < q.1

instance (l : List (κ × ν)) : Decidable (Sorted l) :=
  inferInstanceAs (Decidable (l.Pairwise _))

/-- Set the entry at `k`, in key order. -/
def insert (k : κ) (v : ν) : List (κ × ν) → List (κ × ν)
  | [] => [(k, v)]
  | (k', v') :: l =>
    if k < k' then (k, v) :: (k', v') :: l
    else if k = k' then (k, v) :: l
    else (k', v') :: insert k v l

/-- Drop the entry at `k`. -/
def erase (k : κ) (l : List (κ × ν)) : List (κ × ν) := l.filter fun p => p.1 ≠ k

@[simp] theorem sorted_nil : Sorted ([] : List (κ × ν)) := List.Pairwise.nil

variable {l m : List (κ × ν)} {k : κ} {v : ν}

@[simp] theorem sorted_cons {p : κ × ν} : Sorted (p :: l) ↔ (∀ q ∈ l, p.1 < q.1) ∧ Sorted l :=
  pairwise_cons

theorem sorted_append : Sorted (l ++ m) ↔ Sorted l ∧ Sorted m ∧ ∀ p ∈ l, ∀ q ∈ m, p.1 < q.1 :=
  pairwise_append

/-- Entries below the key are passed over by an insertion. -/
theorem insert_append (hl : ∀ p ∈ l, p.1 < k) : insert k v (l ++ m) = l ++ insert k v m := by
  induction l with
  | nil => rfl
  | cons p l ih =>
    have hp : p.1 < k := hl p mem_cons_self
    have hl' := ih fun q hq => hl q (mem_cons_of_mem p hq)
    simp only [cons_append, insert, not_lt_of_gt hp, if_false, hp.ne', hl']

theorem insert_cons_self {w : ν} : insert k v ((k, w) :: m) = (k, v) :: m := by
  simp [insert]

theorem lookup_cons_eq {p : κ × ν} :
    (p :: l).lookup k = if k = p.1 then some p.2 else l.lookup k := by
  obtain ⟨k', v⟩ := p
  by_cases h : k = k'
  · simp [h]
  · simp [lookup_cons, h, beq_eq_false_iff_ne.mpr h]

theorem lookup_insert {k' : κ} :
    (insert k v l).lookup k' = if k' = k then some v else l.lookup k' := by
  induction l with
  | nil => rw [insert, lookup_cons_eq]
  | cons p l ih =>
    rw [insert]
    by_cases hlt : k < p.1
    · rw [if_pos hlt, lookup_cons_eq]
    · rw [if_neg hlt]
      by_cases hkp : k = p.1
      · rw [if_pos hkp, lookup_cons_eq, lookup_cons_eq]
        by_cases hk : k' = k
        · simp [hk]
        · simp [hk, hkp ▸ hk]
      · rw [if_neg hkp, lookup_cons_eq, lookup_cons_eq, ih]
        by_cases hk : k' = k
        · simp [hk, hkp]
        · simp [hk]

theorem lookup_split (hl : ∀ p ∈ l, p.1 < k) : (l ++ (k, v) :: m).lookup k = some v := by
  have hnone : l.lookup k = none := by
    rw [lookup_eq_none_iff]
    intro p hp
    simpa using (hl p hp).ne'
  rw [lookup_append, hnone, lookup_cons_self, Option.none_or]

theorem insert_split {w : ν} (hl : ∀ p ∈ l, p.1 < k) :
    insert k v (l ++ (k, w) :: m) = l ++ (k, v) :: m := by
  rw [insert_append hl, insert_cons_self]

theorem mem_of_lookup (h : l.lookup k = some v) : (k, v) ∈ l := by
  obtain ⟨l₁, l₂, rfl, -⟩ := lookup_eq_some_iff.mp h
  simp

/-! ### A sorted list is the map it holds -/

theorem sorted_iff_keys : Sorted l ↔ (l.map Prod.fst).Pairwise (· < ·) :=
  pairwise_map.symm

theorem lookup_eq_none_of_forall_lt (h : ∀ p ∈ l, k < p.1) : l.lookup k = none := by
  rw [lookup_eq_none_iff]
  intro p hp
  simpa using (h p hp).ne

theorem lookup_of_mem (hl : Sorted l) {p : κ × ν} (hp : p ∈ l) : l.lookup p.1 = some p.2 := by
  obtain ⟨l₁, l₂, rfl⟩ := append_of_mem hp
  exact lookup_split fun q hq => (sorted_append.mp hl).2.2 q hq p mem_cons_self

theorem exists_split (hl : Sorted l) (h : l.lookup k = some v) :
    ∃ l₁ l₂, l = l₁ ++ (k, v) :: l₂ ∧ ∀ p ∈ l₁, p.1 < k := by
  obtain ⟨l₁, l₂, rfl⟩ := append_of_mem (mem_of_lookup h)
  exact ⟨l₁, l₂, rfl, fun p hp => (sorted_append.mp hl).2.2 p hp (k, v) mem_cons_self⟩

/-- Keeping what is above a key keeps the entries above it. -/
theorem lookup_filter_lt {k' : κ} (h : k < k') :
    (l.filter fun p => k < p.1).lookup k' = l.lookup k' := by
  induction l with
  | nil => rfl
  | cons p l ih =>
    by_cases hp : k < p.1
    · rw [filter_cons_of_pos (by simpa using hp), lookup_cons_eq, lookup_cons_eq, ih]
    · have hne : k' ≠ p.1 := fun heq => hp (heq ▸ h)
      rw [filter_cons_of_neg (by simpa using hp), lookup_cons_eq, if_neg hne, ih]

theorem lookup_erase {k' : κ} : (erase k l).lookup k' = if k' = k then none else l.lookup k' := by
  induction l with
  | nil => simp [erase]
  | cons p l ih =>
    rw [erase] at ih ⊢
    by_cases hp : p.1 = k
    · rw [filter_cons_of_neg (by simp [hp]), ih, lookup_cons_eq, hp]
      split_ifs <;> rfl
    · rw [filter_cons_of_pos (by simp [hp]), lookup_cons_eq, lookup_cons_eq, ih]
      by_cases hk : k' = p.1
      · rw [if_pos hk, if_pos hk, if_neg (hk ▸ hp)]
      · rw [if_neg hk, if_neg hk]

theorem mem_insert {p : κ × ν} (hp : p ∈ insert k v l) : p = (k, v) ∨ p ∈ l := by
  induction l with
  | nil => simpa [insert] using hp
  | cons q l ih =>
    rw [insert] at hp
    split_ifs at hp
    · exact (mem_cons.mp hp)
    · exact (mem_cons.mp hp).imp_right (mem_cons_of_mem q)
    · rcases mem_cons.mp hp with rfl | hp
      · exact .inr mem_cons_self
      · exact (ih hp).imp_right (mem_cons_of_mem q)

theorem sorted_insert (hl : Sorted l) : Sorted (insert k v l) := by
  induction l with
  | nil => simp [insert]
  | cons q l ih =>
    obtain ⟨hq, hl⟩ := sorted_cons.mp hl
    rw [insert]
    split_ifs with hlt heq
    · refine sorted_cons.mpr ⟨fun p hp => ?_, sorted_cons.mpr ⟨hq, hl⟩⟩
      rcases mem_cons.mp hp with rfl | hp
      · exact hlt
      · exact hlt.trans (hq p hp)
    · exact sorted_cons.mpr ⟨fun p hp => heq ▸ hq p hp, hl⟩
    · refine sorted_cons.mpr ⟨fun p hp => ?_, ih hl⟩
      rcases mem_insert hp with rfl | hp
      · exact lt_of_le_of_ne (not_lt.mp hlt) (Ne.symm heq)
      · exact hq p hp

theorem sorted_erase (hl : Sorted l) : Sorted (erase k l) :=
  hl.filter _

/-- Sorted lists that hold the same map are the same list. -/
theorem ext_lookup (hl : Sorted l) (hm : Sorted m) (h : ∀ k, l.lookup k = m.lookup k) : l = m := by
  induction l generalizing m with
  | nil =>
    cases m with
    | nil => rfl
    | cons q m => simpa [lookup_cons_eq] using h q.1
  | cons p l ih =>
    obtain ⟨hp, hl⟩ := sorted_cons.mp hl
    cases m with
    | nil => simpa [lookup_cons_eq] using h p.1
    | cons q m =>
      obtain ⟨hq, hm⟩ := sorted_cons.mp hm
      have hkey : p.1 = q.1 := by
        -- the smaller of two different heads would be missing on the other side
        by_contra hne
        rcases lt_or_gt_of_ne hne with hlt | hlt
        · have hnone := lookup_eq_none_of_forall_lt fun r hr => hlt.trans (hq r hr)
          simpa [lookup_cons_eq, hne, hnone] using h p.1
        · have hnone := lookup_eq_none_of_forall_lt fun r hr => hlt.trans (hp r hr)
          simpa [lookup_cons_eq, Ne.symm hne, hnone] using h q.1
      have hval : p.2 = q.2 := by simpa [lookup_cons_eq, hkey] using h p.1
      have htail : l = m := by
        refine ih hl hm fun k => ?_
        by_cases hk : k = p.1
        · rw [hk, lookup_eq_none_of_forall_lt hp, hkey, lookup_eq_none_of_forall_lt hq]
        · simpa [lookup_cons_eq, hk, hkey ▸ hk] using h k
      rw [htail, Prod.ext hkey hval]

/-! ### Putting entries over a map -/

theorem Sorted.nodup_keys (h : Sorted l) : (l.map Prod.fst).Nodup :=
  (sorted_iff_keys.mp h).imp ne_of_lt

/-- The entries put over those of a map, one after the other. -/
def overlay (base entries : List (κ × ν)) : List (κ × ν) :=
  entries.foldl (fun m p => insert p.1 p.2 m) base

theorem sorted_overlay {base : List (κ × ν)} (hb : Sorted base) (entries : List (κ × ν)) :
    Sorted (overlay base entries) := by
  induction entries generalizing base with
  | nil => exact hb
  | cons p entries ih => exact ih (sorted_insert hb)

theorem lookup_eq_none_of_notMem (h : k ∉ l.map Prod.fst) : l.lookup k = none := by
  refine Option.eq_none_iff_forall_ne_some.mpr fun v hv => h ?_
  exact mem_map.mpr ⟨(k, v), mem_of_lookup hv, rfl⟩

theorem lookup_overlay (base : List (κ × ν)) {entries : List (κ × ν)}
    (hs : (entries.map Prod.fst).Nodup) (k : κ) :
    (overlay base entries).lookup k = (entries.lookup k).or (base.lookup k) := by
  induction entries generalizing base with
  | nil => simp [overlay]
  | cons p entries ih =>
    obtain ⟨hp, hs⟩ := nodup_cons.mp hs
    rw [overlay, foldl_cons, ← overlay, ih _ hs, lookup_insert, lookup_cons_eq]
    split_ifs with hk
    · rw [hk, lookup_eq_none_of_notMem hp]
      rfl
    · rfl

theorem lookup_eq_some_iff_mem (hl : (l.map Prod.fst).Nodup) :
    l.lookup k = some v ↔ (k, v) ∈ l := by
  refine ⟨mem_of_lookup, fun hmem => ?_⟩
  induction l with
  | nil => exact absurd hmem not_mem_nil
  | cons p l ih =>
    obtain ⟨hp, hl⟩ := nodup_cons.mp hl
    rw [lookup_cons_eq]
    rcases mem_cons.mp hmem with rfl | hmem
    · exact if_pos rfl
    · have hne : k ≠ p.1 := fun heq => hp (mem_map.mpr ⟨(k, v), hmem, heq⟩)
      rw [if_neg hne, ih hl hmem]

theorem overlay_of_perm (hm : Sorted m) (h : l.Perm m) : overlay [] l = m := by
  have hl : (l.map Prod.fst).Nodup := (h.map Prod.fst).nodup_iff.mpr hm.nodup_keys
  refine ext_lookup (sorted_overlay sorted_nil l) hm fun k => Option.ext fun v => ?_
  rw [lookup_overlay [] hl, lookup_nil, Option.or_none, lookup_eq_some_iff_mem hl,
    lookup_eq_some_iff_mem hm.nodup_keys, h.mem_iff]

/-! ### Entries that may be missing -/

/-- The entries that have a value. -/
def present (ms : List (κ × Option ν)) : List (κ × ν) :=
  ms.filterMap fun m => m.2.map fun v => (m.1, v)

omit [LinearOrder κ] in
theorem mem_present {ms : List (κ × Option ν)} {p : κ × ν} :
    p ∈ present ms ↔ (p.1, some p.2) ∈ ms := by
  rw [present, mem_filterMap]
  constructor
  · rintro ⟨m, hm, hp⟩
    obtain ⟨v, hv, rfl⟩ := Option.map_eq_some_iff.mp hp
    exact hv ▸ hm
  · exact fun hp => ⟨_, hp, rfl⟩

omit [LinearOrder κ] in
theorem keys_present_sublist (ms : List (κ × Option ν)) :
    ((present ms).map Prod.fst).Sublist (ms.map Prod.fst) := by
  induction ms with
  | nil => exact List.Sublist.slnil
  | cons m ms ih =>
    obtain ⟨k, _ | v⟩ := m
    · exact ih.cons k
    · exact ih.cons_cons k

theorem lookup_present {ms : List (κ × Option ν)} (hkeys : (ms.map Prod.fst).Nodup) (k : κ) :
    (present ms).lookup k = (ms.lookup k).join := by
  induction ms with
  | nil => rfl
  | cons m ms ih =>
    obtain ⟨hm, hms⟩ := nodup_cons.mp hkeys
    obtain ⟨k', v⟩ := m
    have hcons : present ((k', v) :: ms) = (v.map fun v => (k', v)).toList ++ present ms := by
      cases v <;> rfl
    rw [hcons, lookup_cons_eq]
    cases v with
    | none =>
      split_ifs with hk
      · -- the entry is not made up for by another one
        refine lookup_eq_none_of_notMem fun hmem => hm ?_
        rw [hk] at hmem
        exact (keys_present_sublist ms).subset hmem
      · exact ih hms
    | some v =>
      rw [Option.map_some, Option.toList_some, singleton_append, lookup_cons_eq]
      split_ifs
      · rfl
      · exact ih hms

/-! ### Mapping the values -/

section Map

variable {ν' : Type}

/-- Apply a function to every value. -/
def mapValues (f : ν → ν') (l : List (κ × ν)) : List (κ × ν') := l.map fun p => (p.1, f p.2)

variable (f : ν → ν')

omit [LinearOrder κ] in
theorem map_fst_mapValues (l : List (κ × ν)) : (mapValues f l).map Prod.fst = l.map Prod.fst := by
  rw [mapValues, map_map]
  rfl

theorem lookup_mapValues (k : κ) (l : List (κ × ν)) :
    (mapValues f l).lookup k = (l.lookup k).map f := by
  induction l with
  | nil => rfl
  | cons p l ih =>
    rw [mapValues, map_cons, lookup_cons_eq, lookup_cons_eq]
    split_ifs
    · rfl
    · exact ih

theorem insert_mapValues (k : κ) (v : ν) (l : List (κ × ν)) :
    insert k (f v) (mapValues f l) = mapValues f (insert k v l) := by
  induction l with
  | nil => rfl
  | cons p l ih =>
    rw [mapValues, map_cons, insert, insert]
    split_ifs
    · rfl
    · rfl
    · exact congrArg (List.cons _) ih

theorem erase_mapValues (k : κ) (l : List (κ × ν)) :
    erase k (mapValues f l) = mapValues f (erase k l) := by
  rw [erase, erase, mapValues, mapValues, filter_map]
  rfl

end Map

end SortedAssoc
