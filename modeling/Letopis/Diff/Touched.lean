import Mathlib.Data.List.GetD
import Letopis.Diff.Exact
import Letopis.Diff.Orders
import Letopis.Storage.Db

/-!
# Which places a diff names

A diff descends where both sides have an object, or both have an array, and records one change for
anything else that differs. So on the way to the place of a change both sides have containers of the
same kind (`exists_walk_of_mem`), and if they have them on the way to a place at which they differ,
some change is at the place or below it (`exists_mem_of_ne`). A place below a value that is added,
removed or replaced as a whole is not named at all.

The history can be filtered by a path. The filter compares texts: the path of a change is the given
one, or goes on with a dot or a bracket behind it. `of_pathMatches` says what that is worth for
paths as the diff writes them. The end of the pattern also matches before a final newline, so a
field may be taken for one whose name is a newline longer.
-/

namespace Letopis

open SortedAssoc List

/-! ### Places -/

/-- A step to a field: a key that dot-notation can carry, or a position in an array. -/
def PathSeg.IsField : PathSeg → Prop
  | .key name => PlainKey name
  | .index i => 0 ≤ i
  | .keyed _ _ => False

namespace PathSeg.IsField

variable {s t : PathSeg}

theorem isKeyed (h : s.IsField) : s.isKeyed = false := by
  cases s with
  | key | index => rfl
  | keyed => exact h.elim

theorem text_ne_empty (h : s.IsField) : s.text ≠ "" := by
  rw [Ne, PathSeg.text_eq_empty]
  rintro rfl
  exact h.1 rfl

theorem notMem_text (h : s.IsField) : '.' ∉ s.text.toList ∧ '[' ∉ s.text.toList := by
  refine PathSeg.notMem_text ?_ h.isKeyed
  cases s with
  | key name => exact ⟨h.2.2.1, h.2.2.2⟩
  | index i => trivial
  | keyed => exact h.elim

theorem eq_of_text (hs : s.IsField) (ht : t.IsField) (h : s.text = t.text) : s = t := by
  cases s with
  | key name =>
    cases t with
    | key name' => exact congrArg PathSeg.key h
    | index i =>
      have hplain := hs.2.1
      rw [show name = Nat.repr i.toNat from h, all_isDecimal_repr] at hplain
      cases hplain
    | keyed => exact ht.elim
  | index i =>
    cases t with
    | key name =>
      have hplain := ht.2.1
      rw [show name = Nat.repr i.toNat from h.symm, all_isDecimal_repr] at hplain
      cases hplain
    | index j =>
      have hnat : i.toNat = j.toNat := repr_injective h
      have hi : 0 ≤ i := hs
      have hj : 0 ≤ j := ht
      rw [show i = j by omega]
    | keyed => exact ht.elim
  | keyed => exact hs.elim

end PathSeg.IsField

/-- Both are objects, or both are arrays. -/
def Json.SameContainer : Json → Json → Prop
  | .obj _, .obj _ => True
  | .arr _, .arr _ => True
  | _, _ => False

/-- On the way to the place, both values have an object or both have an array; at the place itself
they may have anything. -/
def SameContainers (a b : Json) (w : List PathSeg) : Prop :=
  ∀ q rest, w = q ++ rest → rest ≠ [] →
    ∃ x y, a.resolve q = some x ∧ b.resolve q = some y ∧ x.SameContainer y

private theorem sameContainers_nil (a b : Json) : SameContainers a b [] := by
  intro q rest h hne
  exact absurd (append_eq_nil_iff.mp h.symm).2 hne

theorem SameContainers.of_dropLast {a b : Json} {w w' : List PathSeg} (h : SameContainers a b w)
    (hpre : w'.dropLast <+: w) (hlen : w'.length ≤ w.length) : SameContainers a b w' := by
  rintro q rest rfl hne
  have hq : q <+: w := by
    refine List.IsPrefix.trans ⟨rest.dropLast, ?_⟩ hpre
    rw [dropLast_append_of_ne_nil hne]
  obtain ⟨rest', rfl⟩ := hq
  refine h q rest' rfl fun hnil => hne (length_eq_zero_iff.mp ?_)
  rw [hnil, length_append, length_append, length_nil] at hlen
  omega

theorem sameContainers_cons_iff {a b : Json} {s : PathSeg} {w : List PathSeg} :
    SameContainers a b (s :: w) ↔ a.SameContainer b ∧ (w = [] ∨
      ∃ av bv, a.descend s = some av ∧ b.descend s = some bv ∧ SameContainers av bv w) := by
  constructor
  · intro h
    obtain ⟨x, y, hx, hy, hkind⟩ := h [] (s :: w) rfl (cons_ne_nil s w)
    cases hx
    cases hy
    refine ⟨hkind, or_iff_not_imp_left.mpr fun hw => ?_⟩
    obtain ⟨x, y, hx, hy, -⟩ := h [s] w rfl hw
    rw [Json.resolve_cons] at hx hy
    obtain ⟨av, hav, -⟩ := Option.bind_eq_some_iff.mp hx
    obtain ⟨bv, hbv, -⟩ := Option.bind_eq_some_iff.mp hy
    refine ⟨av, bv, hav, hbv, fun q rest hq hne => ?_⟩
    obtain ⟨x, y, hx, hy, hkind⟩ := h (s :: q) rest (by rw [hq]; rfl) hne
    rw [Json.resolve_cons, hav] at hx
    rw [Json.resolve_cons, hbv] at hy
    exact ⟨x, y, hx, hy, hkind⟩
  · rintro ⟨hkind, hrest⟩ q rest hq hne
    cases q with
    | nil => exact ⟨a, b, rfl, rfl, hkind⟩
    | cons s' q =>
      obtain ⟨rfl, rfl⟩ := cons_eq_cons.mp hq
      rcases hrest with hnil | ⟨av, bv, hav, hbv, hbelow⟩
      · exact absurd (append_eq_nil_iff.mp hnil).2 hne
      · obtain ⟨x, y, hx, hy, hkind⟩ := hbelow q rest rfl hne
        exact ⟨x, y, by rw [Json.resolve_cons, hav]; exact hx,
          by rw [Json.resolve_cons, hbv]; exact hy, hkind⟩

namespace SameContainers

variable {a b : Json} {s : PathSeg} {w : List PathSeg} (h : SameContainers a b (s :: w))

include h

theorem eq_nil (hnone : a.descend s = none ∨ b.descend s = none) : w = [] := by
  obtain ⟨-, hnil | ⟨av, bv, hav, hbv, -⟩⟩ := sameContainers_cons_iff.mp h
  · exact hnil
  · simp [hav, hbv] at hnone

theorem below {av bv : Json} (hav : a.descend s = some av) (hbv : b.descend s = some bv) :
    SameContainers av bv w := by
  obtain ⟨-, rfl | ⟨av', bv', hav', hbv', hbelow⟩⟩ := sameContainers_cons_iff.mp h
  · exact sameContainers_nil av bv
  · cases hav.symm.trans hav'
    cases hbv.symm.trans hbv'
    exact hbelow

end SameContainers

/-! ### Changes part by part -/

section Parts

variable {opts : DiffOptions} {path : String} {ch : Change}

private theorem entryDiff_self (k : String) (o : Option Json) : entryDiff opts path k o o = [] := by
  cases o with
  | none => rfl
  | some v => exact diffValue_of_eq rfl

variable (opts path) in
private theorem exists_mem_entryDiff (k : String) {o o' : Option Json} (hne : o ≠ o')
    (hnone : o = none ∨ o' = none) :
    ∃ ch ∈ entryDiff opts path k o o', ch.path = childPath path k := by
  rcases hnone with rfl | rfl
  · obtain ⟨v, rfl⟩ := Option.ne_none_iff_exists'.mp hne.symm
    exact ⟨_, mem_cons_self, rfl⟩
  · obtain ⟨v, rfl⟩ := Option.ne_none_iff_exists'.mp hne
    exact ⟨_, mem_cons_self, rfl⟩

private theorem mem_indexDiff_iff {aa ba : List Json} :
    ch ∈ diffElems opts path 0 aa ba ++ arrayTail path aa ba ↔
      ∃ i : Nat, ch ∈ entryDiff opts path (Nat.repr i) aa[i]? ba[i]? := by
  rw [mem_append, diffElems_eq_flatMap, mem_flatMap, arrayTail, mem_append,
    mem_addedTail_iff, mem_removedTail_iff]
  constructor
  · rintro (⟨j, hj, hch⟩ | ⟨i, x, hle, hx, rfl⟩ | ⟨i, x, hle, hx, rfl⟩)
    · have hlt := mem_range.mp hj
      refine ⟨j, ?_⟩
      rw [Nat.zero_add, getD_eq_getElem _ _ (by omega), getD_eq_getElem _ _ (by omega)]
        at hch
      rw [getElem?_eq_getElem (by omega), getElem?_eq_getElem (by omega)]
      exact hch
    · refine ⟨i, ?_⟩
      have hlt := (List.getElem?_eq_some_iff.mp hx).1
      rw [hx, getElem?_eq_none (by omega)]
      exact mem_cons_self
    · refine ⟨i, ?_⟩
      have hlt := (List.getElem?_eq_some_iff.mp hx).1
      rw [hx, getElem?_eq_none (by omega)]
      exact mem_cons_self
  · rintro ⟨i, hch⟩
    cases ha : aa[i]? with
    | none =>
      cases hb : ba[i]? with
      | none =>
        rw [ha, hb] at hch
        exact absurd hch not_mem_nil
      | some x =>
        rw [ha, hb] at hch
        have hle := List.getElem?_eq_none_iff.mp ha
        exact .inr (.inl ⟨i, x, by omega, hb, mem_singleton.mp hch⟩)
    | some x =>
      obtain ⟨hlt, hx⟩ := List.getElem?_eq_some_iff.mp ha
      cases hb : ba[i]? with
      | none =>
        rw [ha, hb] at hch
        have hle := List.getElem?_eq_none_iff.mp hb
        exact .inr (.inr ⟨i, x, by omega, ha, mem_singleton.mp hch⟩)
      | some y =>
        obtain ⟨hlt', hy⟩ := List.getElem?_eq_some_iff.mp hb
        rw [ha, hb] at hch
        refine .inl ⟨i, mem_range.mpr (by omega), ?_⟩
        rw [Nat.zero_add, getD_eq_getElem _ _ hlt, getD_eq_getElem _ _ hlt', hx, hy]
        exact hch

private theorem mem_diffValue_iff (hopts : opts.arrayKeys = []) {a b : Json}
    (hkind : a.SameContainer b) (ha : a.Regular) (hb : b.Regular) : ch ∈ diffValue opts path a b ↔
      ∃ s : PathSeg, s.IsField ∧ ch ∈ entryDiff opts path s.text (a.descend s) (b.descend s) := by
  by_cases heq : a = b
  · subst heq
    simp [diffValue_of_eq, entryDiff_self]
  cases a with
  | null | bool | num | str => exact hkind.elim
  | obj am =>
    cases b with
    | null | bool | num | str | arr => exact hkind.elim
    | obj bm =>
      obtain ⟨hsa, hva⟩ := Json.regular_obj_iff.mp ha
      obtain ⟨hsb, hvb⟩ := Json.regular_obj_iff.mp hb
      unfold diffValue
      rw [if_neg heq]
      dsimp only
      rw [mem_diffMap_iff hsa hsb]
      constructor
      · rintro ⟨k, hk⟩
        refine ⟨.key k, ?_, hk⟩
        cases hav : am.lookup k with
        | some av => exact (hva _ (mem_of_lookup hav)).1
        | none =>
          cases hbv : bm.lookup k with
          | some bv => exact (hvb _ (mem_of_lookup hbv)).1
          | none =>
            rw [hav, hbv] at hk
            exact absurd hk not_mem_nil
      · rintro ⟨s, hs, hch⟩
        cases s with
        | key k => exact ⟨k, hch⟩
        | index i => exact absurd hch not_mem_nil
        | keyed => exact hs.elim
  | arr aa =>
    cases b with
    | null | bool | num | str | obj => exact hkind.elim
    | arr ba =>
      unfold diffValue
      rw [if_neg heq]
      simp only [hopts, lookup_nil, Option.filter_none]
      rw [mem_indexDiff_iff]
      constructor
      · rintro ⟨i, hi⟩
        refine ⟨.index i, Int.natCast_nonneg i, ?_⟩
        rw [Json.descend_index, Json.descend_index]
        exact hi
      · rintro ⟨s, hs, hch⟩
        cases s with
        | key k => exact absurd hch not_mem_nil
        | index i =>
          have hi : ((i.toNat : Nat) : Int) = i := Int.toNat_of_nonneg hs
          rw [← hi, Json.descend_index, Json.descend_index] at hch
          exact ⟨i.toNat, hch⟩
        | keyed => exact hs.elim

end Parts

/-! ### The places of changes -/

private theorem Json.of_descend {a v : Json} {s : PathSeg} (hs : s.IsField)
    (h : a.descend s = some v) :
    (∃ xs, a = .arr xs ∧ v ∈ xs) ∨ ∃ kvs k, a = .obj kvs ∧ (k, v) ∈ kvs := by
  cases a with
  | null | bool | num | str => cases h
  | arr xs =>
    cases s with
    | key k => cases h
    | index i =>
      rw [← Int.toNat_of_nonneg hs, Json.descend_index] at h
      exact .inl ⟨xs, rfl, mem_of_getElem? h⟩
    | keyed => exact hs.elim
  | obj kvs =>
    cases s with
    | key k => exact .inr ⟨kvs, k, rfl, mem_of_lookup h⟩
    | index i => cases h
    | keyed => exact hs.elim

theorem Json.Regular.descend {a v : Json} {s : PathSeg} (ha : a.Regular) (hs : s.IsField)
    (h : a.descend s = some v) : v.Regular := by
  obtain ⟨xs, rfl, hv⟩ | ⟨kvs, k, rfl, hv⟩ := Json.of_descend hs h
  · exact (Json.regular_arr_iff.mp ha).2 v hv
  · exact ((Json.regular_obj_iff.mp ha).2 _ hv).2

private theorem Json.induction_descend {P : Json → Prop}
    (h : ∀ a, (∀ s v, s.IsField → a.descend s = some v → P v) → P a) (a : Json) : P a := by
  induction a using Json.induction with
  | null | bool | num | str =>
    refine h _ fun s v hs hv => ?_
    cases hv
  | arr xs ih =>
    refine h _ fun s v hs hv => ?_
    obtain ⟨xs', heq, hmem⟩ | ⟨kvs, k, heq, -⟩ := Json.of_descend hs hv
    · cases heq
      exact ih v hmem
    · cases heq
  | obj kvs ih =>
    refine h _ fun s v hs hv => ?_
    obtain ⟨xs', heq, -⟩ | ⟨kvs', k, heq, hmem⟩ := Json.of_descend hs hv
    · cases heq
    · cases heq
      exact ih _ hmem

section Places

variable {opts : DiffOptions} {path : String} {ch : Change} {a b : Json}

private theorem path_of_mem (hkind : ¬ a.SameContainer b) (h : ch ∈ diffValue opts path a b) :
    ch.path = path := by
  unfold diffValue at h
  split_ifs at h
  · exact absurd h not_mem_nil
  · split at h
    · exact absurd trivial hkind
    · exact absurd trivial hkind
    · rw [mem_singleton.mp h]

/-- **The place of a change.** Every change is at a place to which both values have the same
containers on the way. -/
theorem exists_walk_of_mem (hopts : opts.arrayKeys = []) (ha : a.Regular) (hb : b.Regular)
    (h : ch ∈ diffValue opts path a b) :
    ∃ w, (∀ s ∈ w, s.IsField) ∧ ch.path = walkPath path w ∧ SameContainers a b w := by
  induction a using Json.induction_descend generalizing b path with
  | h a ih =>
    by_cases hkind : a.SameContainer b
    · obtain ⟨s, hs, hch⟩ := (mem_diffValue_iff hopts hkind ha hb).mp h
      rcases mem_entryDiff hch with ⟨hpath, -⟩ | ⟨av, bv, hav, hbv, hch⟩
      · refine ⟨[s], forall_mem_singleton.mpr hs, ?_, ?_⟩
        · rw [hpath, walkPath_cons, PathSeg.extend_eq hs.isKeyed]
          rfl
        · exact sameContainers_cons_iff.mpr ⟨hkind, .inl rfl⟩
      · obtain ⟨w, hw, hpath, hsame⟩ :=
          ih s av hs hav (ha.descend hs hav) (hb.descend hs hbv) hch
        refine ⟨s :: w, forall_mem_cons.mpr ⟨hs, hw⟩, ?_, ?_⟩
        · rw [hpath, walkPath_cons, PathSeg.extend_eq hs.isKeyed]
        · exact sameContainers_cons_iff.mpr ⟨hkind, .inr ⟨av, bv, hav, hbv, hsame⟩⟩
    · exact ⟨[], forall_mem_nil _, path_of_mem hkind h, sameContainers_nil a b⟩

/-- **What a diff shows.** If both values have the same containers on the way to a place, and the
place does not have the same value in both, some change is at the place or below it. -/
theorem exists_mem_of_ne (hopts : opts.arrayKeys = []) (ha : a.Regular) (hb : b.Regular)
    {w : List PathSeg} (hw : ∀ s ∈ w, s.IsField) (hsame : SameContainers a b w)
    (hne : a.resolve w ≠ b.resolve w) :
    ∃ ch ∈ diffValue opts path a b, ∃ rest, (∀ s ∈ rest, s.IsField) ∧
      ch.path = walkPath path (w ++ rest) := by
  induction w generalizing a b path with
  | nil =>
    have hdiff : diffValue opts path a b ≠ [] := fun hnil =>
      hne (congrArg some (eq_of_diffValue_eq_nil hopts ha.wf hb.wf hnil))
    obtain ⟨ch, hch⟩ := exists_mem_of_ne_nil _ hdiff
    obtain ⟨rest, hrest, hpath, -⟩ := exists_walk_of_mem hopts ha hb hch
    exact ⟨ch, hch, rest, hrest, hpath⟩
  | cons s w ih =>
    obtain ⟨hs, hw⟩ := forall_mem_cons.mp hw
    obtain ⟨hkind, -⟩ := sameContainers_cons_iff.mp hsame
    rw [Json.resolve_cons, Json.resolve_cons] at hne
    have hstep : ∀ rest, walkPath path (s :: w ++ rest) =
        walkPath (childPath path s.text) (w ++ rest) := by
      intro rest
      rw [cons_append, walkPath_cons, PathSeg.extend_eq hs.isKeyed]
    have hpart : ∀ ch, ch ∈ entryDiff opts path s.text (a.descend s) (b.descend s) →
        ch ∈ diffValue opts path a b :=
      fun ch hch => (mem_diffValue_iff hopts hkind ha hb).mpr ⟨s, hs, hch⟩
    by_cases hnone : a.descend s = none ∨ b.descend s = none
    · -- the field is added or removed, so it is the place itself
      obtain rfl := hsame.eq_nil hnone
      have hfield : a.descend s ≠ b.descend s := fun heq => hne (by rw [heq])
      obtain ⟨ch, hch, hpath⟩ := exists_mem_entryDiff opts path s.text hfield hnone
      exact ⟨ch, hpart ch hch, [], forall_mem_nil _, by rw [hpath, hstep]; rfl⟩
    · obtain ⟨hav, hbv⟩ := not_or.mp hnone
      obtain ⟨av, hav⟩ := Option.ne_none_iff_exists'.mp hav
      obtain ⟨bv, hbv⟩ := Option.ne_none_iff_exists'.mp hbv
      rw [hav, hbv] at hne hpart
      obtain ⟨ch, hch, rest, hrest, hpath⟩ :=
        ih (ha.descend hs hav) (hb.descend hs hbv) hw (hsame.below hav hbv) hne
      exact ⟨ch, hpart ch hch, rest, hrest, by rw [hpath, hstep]⟩

end Places

/-! ### Paths as texts -/

private theorem walkPath_concat (path : String) (w : List PathSeg) (s : PathSeg) :
    walkPath path (w ++ [s]) = s.extend (walkPath path w) :=
  foldl_append

section Texts

variable {w rel rest : List PathSeg} {s : PathSeg}

variable (hw : ∀ s ∈ w, s.IsField)

include hw

theorem walkPath_ne_empty (hne : w ≠ []) : walkPath "" w ≠ "" := by
  obtain rfl | ⟨w, s, rfl⟩ := w.eq_nil_or_concat'
  · exact absurd rfl hne
  · have hs : s.IsField := hw s mem_concat_self
    rw [walkPath_concat, PathSeg.extend_eq hs.isKeyed, Ne, childPath_eq_empty]
    exact fun h => hs.text_ne_empty h.2

private theorem toList_walkPath_concat (hs : s.IsField) (hne : w ≠ []) :
    (walkPath "" (w ++ [s])).toList = (walkPath "" w).toList ++ '.' :: s.text.toList := by
  rw [walkPath_concat, PathSeg.extend_eq hs.isKeyed, childPath, if_neg (walkPath_ne_empty hw hne)]
  simp

/-- The parts of a path are what is written for the fields; `tail` is joined to the last. -/
theorem splitOn_walkPath_concat (hs : s.IsField) {tail : List Char} (htail : '.' ∉ tail) :
    ((walkPath "" (w ++ [s])).toList ++ tail).splitOn '.' =
      (w.map fun s => s.text.toList) ++ [s.text.toList ++ tail] := by
  have hlast : '.' ∉ s.text.toList ++ tail := by
    rw [mem_append]
    exact not_or.mpr ⟨hs.notMem_text.1, htail⟩
  induction w using List.reverseRecOn generalizing s tail with
  | nil =>
    rw [nil_append, walkPath_cons, PathSeg.extend_eq hs.isKeyed]
    exact splitOn_eq_singleton hlast
  | append_singleton w s' ih =>
    obtain ⟨hw', hs'⟩ := forall_mem_append.mp hw
    have hs' : s'.IsField := forall_mem_singleton.mp hs'
    have hbefore := ih hw' hs' not_mem_nil (by rw [append_nil]; exact hs'.notMem_text.1)
    rw [append_nil, append_nil] at hbefore
    rw [toList_walkPath_concat hw hs (by simp), append_assoc, cons_append,
      splitOn_append_cons_self, hbefore, splitOn_eq_singleton hlast, map_append]
    rfl

private theorem splitOn_walkPath (hne : w ≠ []) :
    (walkPath "" w).toList.splitOn '.' = w.map fun s => s.text.toList := by
  obtain rfl | ⟨w, s, rfl⟩ := w.eq_nil_or_concat'
  · exact absurd rfl hne
  · obtain ⟨hw, hs⟩ := forall_mem_append.mp hw
    have h := splitOn_walkPath_concat hw (forall_mem_singleton.mp hs) not_mem_nil
    rw [append_nil, append_nil] at h
    rw [h, map_append]
    rfl

private theorem notMem_walkPath : '[' ∉ (walkPath "" w).toList := by
  induction w using List.reverseRecOn with
  | nil => exact not_mem_nil
  | append_singleton w s ih =>
    obtain ⟨hw', hs⟩ := forall_mem_append.mp hw
    have hs : s.IsField := forall_mem_singleton.mp hs
    by_cases hne : w = []
    · subst hne
      rw [nil_append, walkPath_cons, PathSeg.extend_eq hs.isKeyed]
      exact hs.notMem_text.2
    · rw [toList_walkPath_concat hw' hs hne, mem_append, mem_cons]
      rintro (h | h | h)
      · exact ih hw' h
      · exact absurd h (by decide)
      · exact hs.notMem_text.2 h

private theorem exists_walkPath_append (hne : w ≠ []) (hrest : ∀ s ∈ rest, s.IsField) :
    ∃ tail, (walkPath "" (w ++ rest)).toList = (walkPath "" w).toList ++ tail ∧
      (tail = [] ∨ ∃ t, tail = '.' :: t) := by
  induction rest using List.reverseRecOn with
  | nil => exact ⟨[], by rw [append_nil, append_nil], .inl rfl⟩
  | append_singleton rest s ih =>
    obtain ⟨hrest, hs⟩ := forall_mem_append.mp hrest
    obtain ⟨tail, heq, htail⟩ := ih hrest
    refine ⟨tail ++ '.' :: s.text.toList, ?_, .inr ?_⟩
    · rw [← append_assoc, toList_walkPath_concat (forall_mem_append.mpr ⟨hw, hrest⟩)
        (forall_mem_singleton.mp hs) (append_ne_nil_of_left_ne_nil hne rest), heq,
        append_assoc]
    · obtain rfl | ⟨t, rfl⟩ := htail
      · exact ⟨_, rfl⟩
      · exact ⟨_, rfl⟩

private theorem prefix_of_map_text (hrel : ∀ s ∈ rel, s.IsField)
    (h : (w.map fun s => s.text.toList) <+: rel.map fun s => s.text.toList) : w <+: rel := by
  induction w generalizing rel with
  | nil => exact nil_prefix
  | cons s w ih =>
    cases rel with
    | nil => exact absurd (prefix_nil.mp h) (by simp)
    | cons s' rel =>
      obtain ⟨hs, hw⟩ := forall_mem_cons.mp hw
      obtain ⟨hs', hrel⟩ := forall_mem_cons.mp hrel
      obtain ⟨htext, hrest⟩ := cons_prefix_cons.mp h
      rw [hs.eq_of_text hs' (String.toList_inj.mp htext)]
      exact cons_prefix_cons.mpr ⟨rfl, ih hw hrel hrest⟩

end Texts

namespace EventFilter

variable {w rel rest : List PathSeg}

private theorem pathMatches_walkPath (hw : ∀ s ∈ w, s.IsField) (hne : w ≠ [])
    (hrest : ∀ s ∈ rest, s.IsField) :
    pathMatches (walkPath "" w).toList (walkPath "" (w ++ rest)).toList = true := by
  rw [pathMatches_iff]
  obtain ⟨tail, heq, htail⟩ := exists_walkPath_append hw hne hrest
  exact ⟨tail, heq, htail.imp_right fun h => .inr (.inl h)⟩

/-- **What the filter is worth.** A place selected by the filter on the path of another is the same
place up to its last step, or below it. -/
theorem of_pathMatches (hw : ∀ s ∈ w, s.IsField) (hne : w ≠ []) (hrel : ∀ s ∈ rel, s.IsField)
    (h : pathMatches (walkPath "" w).toList (walkPath "" rel).toList = true) :
    w.dropLast <+: rel ∧ w.length ≤ rel.length := by
  obtain ⟨tail, heq, htail⟩ := pathMatches_iff.mp h
  have hrelne : rel ≠ [] := by
    rintro rfl
    have hnil := append_eq_nil_iff.mp heq.symm
    exact walkPath_ne_empty hw hne (String.toList_eq_nil_iff.mp hnil.1)
  have hparts := splitOn_walkPath hrel hrelne
  -- Without a dot in what follows, only the last part can be another.
  have hlast : '.' ∉ tail → w.dropLast <+: rel ∧ w.length ≤ rel.length := by
    intro hdot
    obtain rfl | ⟨w, s, rfl⟩ := w.eq_nil_or_concat'
    · exact absurd rfl hne
    · obtain ⟨hw, hs⟩ := forall_mem_append.mp hw
      rw [heq, splitOn_walkPath_concat hw (forall_mem_singleton.mp hs) hdot] at hparts
      rw [dropLast_concat]
      refine ⟨prefix_of_map_text hw hrel ⟨_, hparts⟩, ?_⟩
      have hlen := congrArg List.length hparts
      rw [length_append, length_map, length_map] at hlen
      exact (length_append.trans hlen).le
  rcases htail with rfl | rfl | ⟨t, rfl⟩ | ⟨t, rfl⟩
  · exact hlast not_mem_nil
  · exact hlast (by decide)
  · rw [heq, splitOn_append_cons_self, splitOn_walkPath hw hne] at hparts
    have hpre : w <+: rel := prefix_of_map_text hw hrel ⟨_, hparts⟩
    exact ⟨( dropLast_prefix w).trans hpre, hpre.length_le⟩
  · refine absurd ?_ (notMem_walkPath hrel)
    rw [heq]
    exact mem_append_right _ mem_cons_self

/-! ### What the filter shows of a diff -/

section Shows

variable {opts : DiffOptions} {a b : Json}

private theorem any_pathMatches_iff {path : List Char} {chs : List Change} :
    chs.any (fun ch => pathMatches path ch.path.toList) = true ↔
      ∃ ch ∈ chs, pathMatches path ch.path.toList = true :=
  any_eq_true

/-- **The filter on a diff.** That nothing is selected says that the place has the same value on
both sides exactly if it has, or if both sides have the same containers on the way there. -/
theorem diff_shows_iff (hopts : opts.arrayKeys = []) (ha : a.Regular) (hb : b.Regular)
    (hw : ∀ s ∈ w, s.IsField) (hne : w ≠ []) :
    ((diff a b opts).any (fun ch => pathMatches (walkPath "" w).toList ch.path.toList) = false →
      a.resolve w = b.resolve w) ↔ a.resolve w = b.resolve w ∨ SameContainers a b w := by
  constructor
  · intro h
    refine or_iff_not_imp_left.mpr fun hdiffer => ?_
    have hany := Bool.of_not_eq_false (mt h hdiffer)
    obtain ⟨ch, hch, hmatch⟩ := any_pathMatches_iff.mp hany
    obtain ⟨rel, hrel, hpath, hsame⟩ := exists_walk_of_mem hopts ha hb hch
    rw [hpath] at hmatch
    obtain ⟨hpre, hlen⟩ := of_pathMatches hw hne hrel hmatch
    exact hsame.of_dropLast hpre hlen
  · rintro (h | hsame) hnone
    · exact h
    by_contra hdiffer
    obtain ⟨ch, hch, rest, hrest, hpath⟩ :=
      @exists_mem_of_ne opts "" a b hopts ha hb w hw hsame hdiffer
    refine absurd (any_pathMatches_iff.mpr ⟨ch, hch, ?_⟩) (Bool.eq_false_iff.mp hnone)
    rw [hpath]
    exact pathMatches_walkPath hw hne hrest

theorem any_diff_nil {path : List Char} {m : Fields} (hm : Sorted m) :
    (diff (.obj []) (.obj m) opts).any (fun ch => pathMatches path ch.path.toList) =
      m.any fun kv => pathMatches path kv.1.toList := by
  rw [Bool.eq_iff_iff, any_pathMatches_iff, any_eq_true]
  by_cases hnil : m = []
  · subst hnil
    rw [diff, diffValue_of_eq rfl]
    exact ⟨by simp, by simp⟩
  have hmem : ∀ ch, ch ∈ diff (.obj []) (.obj m) opts ↔ ∃ k, ch ∈ entryDiff opts "" k none
      (m.lookup k) := by
    intro ch
    have hne : Json.obj [] ≠ .obj m := fun h => hnil (Json.obj.inj h).symm
    unfold diff diffValue
    rw [if_neg hne]
    exact mem_diffMap_iff sorted_nil hm
  constructor
  · rintro ⟨ch, hch, hmatch⟩
    obtain ⟨k, hk⟩ := (hmem ch).mp hch
    cases hv : m.lookup k with
    | none =>
      rw [hv] at hk
      exact absurd hk not_mem_nil
    | some v =>
      rw [hv] at hk
      rw [mem_singleton.mp hk] at hmatch
      exact ⟨(k, v), mem_of_lookup hv, hmatch⟩
  · rintro ⟨⟨k, v⟩, hkv, hmatch⟩
    refine ⟨.addAt k v, (hmem _).mpr ⟨k, ?_⟩, hmatch⟩
    rw [lookup_of_mem hm hkv]
    exact mem_cons_self

end Shows

end EventFilter

end Letopis
