import Mathlib.Data.List.InsertIdx
import Letopis.Diff.Edits

/-!
# What belongs to the result of `Apply`

`Apply` copies the state, so what it builds starts as its own; every new value it puts in is
lent to it by the change. `Owned` is a value with this distinction: containers that belong to the
result, down to values that are lent. A change list keeps off the lent values (`KeepsOff`) if no
change leads into a value that an earlier one has put in; replacing or removing such a value is
fine. For such a list the edits are those of `applyStep` (`Owned.Step.applyStep`).
-/

namespace Letopis.Mutable

open SortedAssoc List

/-! ### Own containers and lent values -/

/-- A value made of own containers, down to lent values and scalars. Own containers and lent
values carry a tag. -/
inductive Owned (α ρ : Type) where
  | lent (tag : ρ) (v : Json)
  | arr (tag : α) (xs : List (Owned α ρ))
  | obj (tag : α) (kvs : List (String × Owned α ρ))

namespace Owned

variable {α ρ : Type}

@[elab_as_elim]
private theorem induction {P : Owned α ρ → Prop} (lent : ∀ tag v, P (.lent tag v))
    (arr : ∀ tag xs, (∀ x ∈ xs, P x) → P (.arr tag xs))
    (obj : ∀ tag (kvs : List (String × Owned α ρ)), (∀ p ∈ kvs, P p.2) → P (.obj tag kvs))
    (t : Owned α ρ) : P t :=
  @Owned.rec α ρ P (fun xs => ∀ x ∈ xs, P x) (fun kvs => ∀ p ∈ kvs, P p.2) (fun p => P p.2)
    lent arr obj (by simp) (fun x xs hx hxs => by simpa using ⟨hx, hxs⟩)
    (by simp) (fun p kvs hp hkvs => by simpa [hp] using hkvs) (fun _ _ h => h) t

mutual

/-- The value without its addresses. -/
def value : Owned α ρ → Json
  | .lent _ v => v
  | .arr _ xs => .arr (values xs)
  | .obj _ kvs => .obj (entryValues kvs)

/-- The values of the elements. -/
def values : List (Owned α ρ) → List Json
  | [] => []
  | x :: xs => x.value :: values xs

/-- The values of the entries. -/
def entryValues : List (String × Owned α ρ) → Fields
  | [] => []
  | (k, x) :: kvs => (k, x.value) :: entryValues kvs

end

theorem values_eq_map (xs : List (Owned α ρ)) : values xs = xs.map value := by
  induction xs with
  | nil => rfl
  | cons x xs ih => rw [values, ih, map_cons]

theorem entryValues_eq (kvs : List (String × Owned α ρ)) :
    entryValues kvs = mapValues value kvs := by
  induction kvs with
  | nil => rfl
  | cons p kvs ih => rw [entryValues, ih, mapValues, mapValues, map_cons]

mutual

/-- The shape without its addresses. -/
def marks : Owned α ρ → Owned Unit Unit
  | .lent _ v => .lent () v
  | .arr _ xs => .arr () (marksAll xs)
  | .obj _ kvs => .obj () (entryMarks kvs)

/-- Forget the tags of the elements. -/
def marksAll : List (Owned α ρ) → List (Owned Unit Unit)
  | [] => []
  | x :: xs => x.marks :: marksAll xs

/-- Forget the tags of the entries. -/
def entryMarks : List (String × Owned α ρ) → List (String × Owned Unit Unit)
  | [] => []
  | (k, x) :: kvs => (k, x.marks) :: entryMarks kvs

end

theorem marksAll_eq_map (xs : List (Owned α ρ)) : marksAll xs = xs.map marks := by
  induction xs with
  | nil => rfl
  | cons x xs ih => rw [marksAll, ih, map_cons]

theorem entryMarks_eq (kvs : List (String × Owned α ρ)) :
    entryMarks kvs = mapValues marks kvs := by
  induction kvs with
  | nil => rfl
  | cons p kvs ih => rw [entryMarks, ih, mapValues, mapValues, map_cons]

theorem value_marks (t : Owned α ρ) : t.marks.value = t.value := by
  induction t using induction with
  | lent => rfl
  | arr _ xs ih =>
    rw [marks, value, value, values_eq_map, values_eq_map, marksAll_eq_map, map_map]
    exact congrArg Json.arr (map_congr_left ih)
  | obj _ kvs ih =>
    rw [marks, value, value, entryValues_eq, entryValues_eq, entryMarks_eq]
    refine congrArg Json.obj ?_
    rw [mapValues, mapValues, mapValues, map_map]
    exact map_congr_left fun p hp => congrArg (Prod.mk p.1) (ih p hp)

end Owned

/-- A value with what is own and what is lent. -/
abbrev Marked : Type := Owned Unit Unit

mutual

/-- A value all of whose containers are own: a deep copy. -/
def own : Json → Marked
  | .arr xs => .arr () (ownAll xs)
  | .obj kvs => .obj () (ownEntries kvs)
  | v => .lent () v

/-- The elements of a deep copy. -/
def ownAll : List Json → List Marked
  | [] => []
  | x :: xs => own x :: ownAll xs

/-- The entries of a deep copy. -/
def ownEntries : Fields → List (String × Marked)
  | [] => []
  | (k, v) :: kvs => (k, own v) :: ownEntries kvs

end

/-- Perform a change at a place given by segments, without leading into a lent value: nothing
where the place is not there, or where it is inside a lent value. -/
def Owned.edit (ch : Change) : Marked → List PathSeg → Option Marked
  | .obj _ m, .key name :: rest =>
    if rest.isEmpty then
      match ch.op with
      | .add | .change => some (.obj () (insert name (.lent () ch.new) m))
      | .remove => if (m.lookup name).isNone then none else some (.obj () (erase name m))
    else
      (m.lookup name).bind fun child => (child.edit ch rest).map fun c => .obj () (insert name c m)
  | .arr _ xs, .index i :: rest =>
    if rest.isEmpty then
      match ch.op with
      | .add => if i < 0 ∨ xs.length < i then none
        else some (.arr () (xs.insertIdx i.toNat (.lent () ch.new)))
      | .change => if i < 0 ∨ xs.length ≤ i then none
        else some (.arr () (xs.set i.toNat (.lent () ch.new)))
      | .remove => if i < 0 ∨ xs.length ≤ i then none
        else some (.arr () (xs.eraseIdx i.toNat))
    else if i < 0 then none
    else xs[i.toNat]?.bind fun x => (x.edit ch rest).map fun c => .arr () (xs.set i.toNat c)
  | .arr _ xs, .keyed keyField keyVal :: rest =>
    let idx := Letopis.indexOfKey (xs.map Owned.value) keyField keyVal
    if rest.isEmpty then
      match ch.op with
      | .add => some (.arr () (xs ++ [.lent () ch.new]))
      | .change => idx.map fun i => .arr () (xs.set i (.lent () ch.new))
      | .remove => idx.map fun i => .arr () (xs.eraseIdx i)
    else
      idx.bind fun i => xs[i]?.bind fun x => (x.edit ch rest).map fun c => .arr () (xs.set i c)
  | _, _ => none
termination_by structural _ segs => segs

/-- Apply one change without leading into a lent value. Replacing the whole value leaves nothing
but a lent one. -/
def Owned.editChange (t : Marked) (ch : Change) : Option Marked :=
  match parsePath ch.path with
  | .error _ => none
  | .ok [] => if ch.op = .change then some (.lent () ch.new) else none
  | .ok segs => t.edit ch segs

/-- The changes can be applied one after another, and none of them leads into a value that an
earlier one has put in. -/
def KeepsOff (a : Json) (chs : List Change) : Prop :=
  (chs.foldlM Owned.editChange (own a)).isSome = true

instance (a : Json) (chs : List Change) : Decidable (KeepsOff a chs) :=
  inferInstanceAs (Decidable (_ = true))

/-! ### The value of what is edited -/

theorem ownAll_eq_map (xs : List Json) : ownAll xs = xs.map own := by
  induction xs with
  | nil => rfl
  | cons x xs ih => rw [ownAll, ih, map_cons]

theorem ownEntries_eq (kvs : Fields) : ownEntries kvs = mapValues own kvs := by
  induction kvs with
  | nil => rfl
  | cons p kvs ih => rw [ownEntries, ih, mapValues, mapValues, map_cons]

theorem value_own (j : Json) : (own j).value = j := by
  induction j using Json.induction with
  | null | bool | num | str => rfl
  | arr xs ih =>
    rw [own, Owned.value, Owned.values_eq_map, ownAll_eq_map, map_map]
    exact congrArg Json.arr ((map_congr_left ih).trans (map_id xs))
  | obj kvs ih =>
    rw [own, Owned.value, Owned.entryValues_eq, ownEntries_eq, mapValues, mapValues, map_map]
    refine congrArg Json.obj ((map_congr_left fun p hp => ?_).trans (map_id kvs))
    exact congrArg (Prod.mk p.1) (ih p hp)

/-! ### What an edit can be

An index and a selector differ only in how they find a position. -/

/-- The segment names the position of an element. -/
def Selects (s : PathSeg) (xs : List Json) (i : Nat) : Prop :=
  (s = .index i ∧ i < xs.length) ∨
    ∃ kf kv, s = .keyed kf kv ∧ Letopis.indexOfKey xs kf kv = some i

/-- The segment names a position where an element can be added. -/
def Inserts (s : PathSeg) (xs : List Json) (i : Nat) : Prop :=
  (s = .index i ∧ i ≤ xs.length) ∨ ∃ kf kv, s = .keyed kf kv ∧ i = xs.length

theorem Selects.lt {s : PathSeg} {xs : List Json} {i : Nat} (h : Selects s xs i) :
    i < xs.length := by
  obtain ⟨-, h⟩ | ⟨kf, kv, -, h⟩ := h
  · exact h
  · exact (findIdx?_eq_some_iff_findIdx_eq.mp h).1

theorem Inserts.le {s : PathSeg} {xs : List Json} {i : Nat} (h : Inserts s xs i) :
    i ≤ xs.length := by
  obtain ⟨-, h⟩ | ⟨kf, kv, -, rfl⟩ := h
  · exact h
  · exact le_rfl

/-- What an edit that keeps off lent values can be. -/
inductive Owned.Step (ch : Change) : Marked → List PathSeg → Marked → Prop where
  | putKey {m name} (hop : ch.op ≠ .remove) :
    Step ch (.obj () m) [.key name] (.obj () (insert name (.lent () ch.new) m))
  | dropKey {m name} (hop : ch.op = .remove) (hname : m.lookup name ≠ none) :
    Step ch (.obj () m) [.key name] (.obj () (erase name m))
  | intoKey {m name s rest c c'} (hc : m.lookup name = some c) (h : Step ch c (s :: rest) c') :
    Step ch (.obj () m) (.key name :: s :: rest) (.obj () (insert name c' m))
  | putNew {xs s i} (hop : ch.op = .add) (hi : Inserts s (xs.map Owned.value) i) :
    Step ch (.arr () xs) [s] (.arr () (xs.insertIdx i (.lent () ch.new)))
  | putOver {xs s i} (hop : ch.op = .change) (hi : Selects s (xs.map Owned.value) i) :
    Step ch (.arr () xs) [s] (.arr () (xs.set i (.lent () ch.new)))
  | dropElem {xs s i} (hop : ch.op = .remove) (hi : Selects s (xs.map Owned.value) i) :
    Step ch (.arr () xs) [s] (.arr () (xs.eraseIdx i))
  | intoElem {xs s i s' rest c c'} (hi : Selects s (xs.map Owned.value) i) (hc : xs[i]? = some c)
    (h : Step ch c (s' :: rest) c') :
    Step ch (.arr () xs) (s :: s' :: rest) (.arr () (xs.set i c'))

/-- An edit is one of the steps. -/
theorem Owned.step_of_edit {ch : Change} {t u : Marked} {segs : List PathSeg}
    (h : t.edit ch segs = some u) : Owned.Step ch t segs u := by
  induction segs generalizing t u with
  | nil => cases t <;> simp [Owned.edit] at h
  | cons s rest ih =>
    cases t with
    | lent => cases s <;> simp [Owned.edit] at h
    | obj _ m =>
      cases s with
      | index | keyed => simp [Owned.edit] at h
      | key name =>
        cases rest with
        | nil =>
          simp only [Owned.edit, isEmpty_nil, if_true] at h
          split at h
          · cases h
            exact .putKey (by simp [*])
          · cases h
            exact .putKey (by simp [*])
          · split_ifs at h with hnone
            cases h
            exact .dropKey (by assumption) (by simpa using hnone)
        | cons s rest =>
          simp only [Owned.edit, isEmpty_cons, Bool.false_eq_true, if_false] at h
          obtain ⟨c, hc, h⟩ := Option.bind_eq_some_iff.mp h
          obtain ⟨c', hc', rfl⟩ := Option.map_eq_some_iff.mp h
          exact .intoKey hc (ih hc')
    | arr _ xs =>
      cases s with
      | key => simp [Owned.edit] at h
      | index i =>
        rcases lt_or_ge i 0 with hneg | hpos
        · -- no element has a negative index
          cases rest with
          | nil =>
            simp only [Owned.edit, isEmpty_nil, if_true, hneg, true_or] at h
            split at h <;> cases h
          | cons s rest => simp [Owned.edit, hneg] at h
        obtain ⟨n, rfl⟩ := Int.eq_ofNat_of_zero_le hpos
        cases rest with
        | nil =>
          simp only [Owned.edit, isEmpty_nil, if_true, Int.toNat_natCast] at h
          split at h
          · split_ifs at h with hi
            cases h
            exact .putNew (by assumption) (.inl ⟨rfl, by rw [length_map]; omega⟩)
          · split_ifs at h with hi
            cases h
            exact .putOver (by assumption) (.inl ⟨rfl, by rw [length_map]; omega⟩)
          · split_ifs at h with hi
            cases h
            exact .dropElem (by assumption) (.inl ⟨rfl, by rw [length_map]; omega⟩)
        | cons s rest =>
          simp only [Owned.edit, isEmpty_cons, Bool.false_eq_true, if_false,
            Int.toNat_natCast] at h
          split_ifs at h
          obtain ⟨c, hc, h⟩ := Option.bind_eq_some_iff.mp h
          obtain ⟨c', hc', rfl⟩ := Option.map_eq_some_iff.mp h
          have hn := (List.getElem?_eq_some_iff.mp hc).1
          exact .intoElem (.inl ⟨rfl, by rwa [length_map]⟩) hc (ih hc')
      | keyed kf kv =>
        cases rest with
        | nil =>
          simp only [Owned.edit, isEmpty_nil, if_true] at h
          split at h
          · cases h
            rw [← insertIdx_length_self]
            exact .putNew (by assumption) (.inr ⟨kf, kv, rfl, by rw [length_map]⟩)
          · obtain ⟨i, hi, rfl⟩ := Option.map_eq_some_iff.mp h
            exact .putOver (by assumption) (.inr ⟨kf, kv, rfl, hi⟩)
          · obtain ⟨i, hi, rfl⟩ := Option.map_eq_some_iff.mp h
            exact .dropElem (by assumption) (.inr ⟨kf, kv, rfl, hi⟩)
        | cons s rest =>
          simp only [Owned.edit, isEmpty_cons, Bool.false_eq_true, if_false] at h
          obtain ⟨i, hi, h⟩ := Option.bind_eq_some_iff.mp h
          obtain ⟨c, hc, h⟩ := Option.bind_eq_some_iff.mp h
          obtain ⟨c', hc', rfl⟩ := Option.map_eq_some_iff.mp h
          exact .intoElem (.inr ⟨kf, kv, rfl, hi⟩) hc (ih hc')

/-! ### One edit of the value -/

section

variable {ch : Change} {xs : List Json} {s : PathSeg} {i : Nat}

private theorem applyStep_inserts (hop : ch.op = .add) (hi : Inserts s xs i) :
    Letopis.applyStep ch (.arr xs) [s] = .ok (.arr (xs.insertIdx i ch.new)) := by
  obtain ⟨rfl, hle⟩ | ⟨kf, kv, rfl, rfl⟩ := hi
  · simpa [Letopis.applyStep, hop] using hle
  · simp [Letopis.applyStep, hop]

private theorem applyStep_selects_change (hop : ch.op = .change) (hi : Selects s xs i) :
    Letopis.applyStep ch (.arr xs) [s] = .ok (.arr (xs.set i ch.new)) := by
  obtain ⟨rfl, hlt⟩ | ⟨kf, kv, rfl, hidx⟩ := hi
  · simpa [Letopis.applyStep, hop] using hlt
  · simp [Letopis.applyStep, hop, hidx]

private theorem applyStep_selects_remove (hop : ch.op = .remove) (hi : Selects s xs i) :
    Letopis.applyStep ch (.arr xs) [s] = .ok (.arr (xs.eraseIdx i)) := by
  obtain ⟨rfl, hlt⟩ | ⟨kf, kv, rfl, hidx⟩ := hi
  · simpa [Letopis.applyStep, hop] using hlt
  · simp [Letopis.applyStep, hop, hidx]

private theorem applyStep_selects_into {s' : PathSeg} {rest : List PathSeg} {x y : Json}
    (hi : Selects s xs i) (hx : xs[i]? = some x)
    (h : Letopis.applyStep ch x (s' :: rest) = .ok y) :
    Letopis.applyStep ch (.arr xs) (s :: s' :: rest) = .ok (.arr (xs.set i y)) := by
  have hget : xs.getD i .null = x := by simp [hx]
  obtain ⟨rfl, hlt⟩ | ⟨kf, kv, rfl, hidx⟩ := hi
  · have hin : ¬((i : Int) < 0 ∨ (xs.length : Int) ≤ i) := by omega
    rw [Letopis.applyStep]
    simp only [isEmpty_cons, Bool.false_eq_true, if_false, hin, Int.toNat_natCast, hget, h]
  · rw [Letopis.applyStep]
    simp only [isEmpty_cons, Bool.false_eq_true, if_false, hidx, hget, h]

end

/-- A step is what `applyStep` does to the value. -/
theorem Owned.Step.applyStep {ch : Change} {t u : Marked} {segs : List PathSeg}
    (h : Owned.Step ch t segs u) : Letopis.applyStep ch t.value segs = .ok u.value := by
  induction h with
  | @putKey m name hop =>
    simp only [Owned.value, Owned.entryValues_eq]
    rw [applyStep_obj, ← insert_mapValues]
    cases hch : ch.op with
    | add | change =>
      simp only [applyEntry, hch, Except.map]
      rfl
    | remove => exact absurd hch hop
  | @dropKey m name hop hname =>
    simp only [Owned.value, Owned.entryValues_eq]
    have hsome : ((mapValues Owned.value m).lookup name).isNone = false := by
      rw [lookup_mapValues, Option.isNone_map]
      simpa using hname
    rw [applyStep_obj, ← erase_mapValues]
    simp only [applyEntry, hop, hsome]
    rfl
  | @intoKey m name s rest c c' hc _ ih =>
    simp only [Owned.value, Owned.entryValues_eq]
    rw [applyStep_obj, ← insert_mapValues, lookup_mapValues, hc]
    simp only [Option.map_some, applyEntry, ih, Except.map]
    rfl
  | @putNew xs s i hop hi =>
    simp only [Owned.value, Owned.values_eq_map]
    rw [applyStep_inserts hop hi, map_insertIdx]
    rfl
  | @putOver xs s i hop hi =>
    simp only [Owned.value, Owned.values_eq_map]
    rw [applyStep_selects_change hop hi, map_set]
    rfl
  | @dropElem xs s i hop hi =>
    simp only [Owned.value, Owned.values_eq_map]
    rw [applyStep_selects_remove hop hi, eraseIdx_map]
  | @intoElem xs s i s' rest c c' hi hc _ ih =>
    simp only [Owned.value, Owned.values_eq_map]
    have hx : (xs.map Owned.value)[i]? = some c.value := by rw [getElem?_map, hc]; rfl
    rw [applyStep_selects_into hi hx ih, map_set]

end Letopis.Mutable
