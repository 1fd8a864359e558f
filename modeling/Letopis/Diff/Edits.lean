import Mathlib.Data.List.Induction
import Letopis.Diff.Walk

/-!
# Edits relative to a place

`diff` works on trees, `apply` on flat textual paths applied one after another to a changing
value. The two meet in `Edits pre chs a b`: read relative to the place `pre`, the changes
`chs` turn the value `a` into `b`. Edits compose (`Edits.append`) and can be carried out one
level further up: inside an object around the entry (`Edits.key`), inside an array around the
element (`Edits.index`), and inside an array around the element that a selector finds
(`Edits.keyed`). A selector is looked up anew for every change, so the last one needs changes
that leave the element its key (`KeepsKey`).
-/

namespace Letopis

open SortedAssoc List

/-- Every object key of the value can be carried by dot-notation. -/
def Json.PlainKeys (j : Json) : Prop :=
  j.every (fun _ => true) (fun kvs => ∀ p ∈ kvs, PlainKey p.1) = true

instance (j : Json) : Decidable j.PlainKeys := inferInstanceAs (Decidable (_ = true))

/-- A value of the domain of the round trip: a Go value with plain keys. -/
structure Json.Regular (j : Json) : Prop where
  wf : j.WF
  plain : j.PlainKeys

theorem Json.regular_arr_iff {xs : List Json} :
    (Json.arr xs).Regular ↔ xs.length < 2 ^ 63 ∧ ∀ x ∈ xs, x.Regular := by
  constructor
  · rintro ⟨hw, hp⟩
    obtain ⟨hlen, hw⟩ := wf_arr_iff.mp hw
    exact ⟨hlen, fun x hx => ⟨hw x hx, (every_arr_iff.mp hp).2 x hx⟩⟩
  · rintro ⟨hlen, h⟩
    exact ⟨wf_arr_iff.mpr ⟨hlen, fun x hx => (h x hx).wf⟩,
      every_arr_iff.mpr ⟨rfl, fun x hx => (h x hx).plain⟩⟩

theorem Json.regular_obj_iff {kvs : Fields} :
    (Json.obj kvs).Regular ↔ Sorted kvs ∧ ∀ p ∈ kvs, PlainKey p.1 ∧ p.2.Regular := by
  constructor
  · rintro ⟨hw, hp⟩
    obtain ⟨hs, hw⟩ := wf_obj_iff.mp hw
    obtain ⟨hk, hp⟩ := every_obj_iff.mp hp
    exact ⟨hs, fun p hmem => ⟨of_decide_eq_true hk p hmem, hw p hmem, hp p hmem⟩⟩
  · rintro ⟨hs, h⟩
    exact ⟨wf_obj_iff.mpr ⟨hs, fun p hp => (h p hp).2.wf⟩,
      every_obj_iff.mpr ⟨decide_eq_true fun p hp => (h p hp).1, fun p hp => (h p hp).2.plain⟩⟩

/-! ### Changes read relative to a place -/

/-- Read relative to the place `pre`, the changes turn the first value into the second. -/
def Edits (pre : List PathSeg) : List Change → Json → Json → Prop
  | [], a, b => a = b
  | ch :: chs, a, b => ∃ rel m, parsePath ch.path = .ok (pre ++ rel) ∧
      applyAt ch a rel = .ok m ∧ Edits pre chs m b

namespace Edits

variable {pre : List PathSeg} {chs chs' : List Change} {a b c : Json}

theorem append (h : Edits pre chs a b) (h' : Edits pre chs' b c) :
    Edits pre (chs ++ chs') a c := by
  induction chs generalizing a with
  | nil =>
    obtain rfl : a = b := h
    exact h'
  | cons ch chs ih =>
    obtain ⟨rel, m, hp, hm, hrest⟩ := h
    exact ⟨rel, m, hp, hm, ih hrest⟩

theorem single {ch : Change} {rel : List PathSeg} (hp : parsePath ch.path = .ok (pre ++ rel))
    (h : applyAt ch a rel = .ok b) : Edits pre [ch] a b :=
  ⟨rel, b, hp, h, rfl⟩

theorem replace {path : String} {old : Json} (hp : parsePath path = .ok pre) :
    Edits pre [⟨path, .change, old, b⟩] a b :=
  ⟨[], b, by simpa using hp, rfl, rfl⟩

theorem apply_eq (h : Edits [] chs a b) : apply a chs = .ok b := by
  induction chs generalizing a with
  | nil => exact congrArg Except.ok h
  | cons ch chs ih =>
    obtain ⟨rel, m, hp, hm, hrest⟩ := h
    rw [nil_append] at hp
    simp only [apply, applyOneChange, hp, hm]
    exact ih hrest

theorem key {k : String} {v w : Json} {m : Fields} (hm : Sorted m) (hv : m.lookup k = some v)
    (h : Edits (pre ++ [.key k]) chs v w) :
    Edits pre chs (.obj m) (.obj (setEntry k (some w) m)) := by
  induction chs generalizing v m with
  | nil =>
    obtain rfl : v = w := h
    rw [← hv, setEntry_lookup hm]
    rfl
  | cons ch chs ih =>
    obtain ⟨rel, u, hp, hu, hrest⟩ := h
    have hstep : applyEntry ch (some v) rel = .ok (some u) := by
      cases rel with
      | nil =>
        -- the entry itself is replaced
        simp only [applyAt] at hu
        split_ifs at hu with hop
        cases hu
        simp only [applyEntry, hop]
      | cons s rel =>
        simp only [applyAt] at hu
        simp only [applyEntry, hu, Except.map]
    have hlast := ih (sorted_setEntry hm) (by rw [lookup_setEntry, if_pos rfl]) hrest
    rw [setEntry_setEntry hm] at hlast
    refine ⟨.key k :: rel, .obj (setEntry k (some u) m), by simpa using hp, ?_, hlast⟩
    simp only [applyAt, applyStep_obj, hv, hstep, Except.map]

theorem index {v w : Json} {l m : List Json}
    (h : Edits (pre ++ [.index l.length]) chs v w) :
    Edits pre chs (.arr (l ++ v :: m)) (.arr (l ++ w :: m)) := by
  induction chs generalizing v with
  | nil =>
    obtain rfl : v = w := h
    rfl
  | cons ch chs ih =>
    obtain ⟨rel, u, hp, hu, hrest⟩ := h
    refine ⟨.index l.length :: rel, .arr (l ++ u :: m), by simpa using hp, ?_, ih hrest⟩
    have hin : ¬ ((l.length : Int) < 0 ∨ ((l ++ v :: m).length : Int) ≤ l.length) := by
      simp only [length_append, length_cons]
      omega
    cases rel with
    | nil =>
      simp only [applyAt] at hu
      split_ifs at hu with hop
      cases hu
      simp only [applyAt, applyStep, isEmpty_nil, if_true, hop, hin, if_false]
      simp
    | cons s rel =>
      simp only [applyAt] at hu
      have hget : (l ++ v :: m).getD l.length .null = v := by simp
      simp only [applyAt, applyStep, isEmpty_cons, Bool.false_eq_true, if_false, hin,
        Int.toNat_natCast, hget, hu]
      simp

theorem located (h : Edits pre chs a b) {ch : Change} (hch : ch ∈ chs) :
    ∃ rel, parsePath ch.path = .ok (pre ++ rel) ∧ (rel = [] → ch.op = .change) := by
  induction chs generalizing a with
  | nil => exact absurd hch not_mem_nil
  | cons c chs ih =>
    obtain ⟨rel, m, hp, hm, hrest⟩ := h
    rcases mem_cons.mp hch with rfl | hch
    · refine ⟨rel, hp, ?_⟩
      rintro rfl
      by_contra hop
      simp [applyAt, hop] at hm
    · exact ih hrest hch

end Edits

/-! ### Edits of a selected element -/

/-- Read relative to an element, the change leaves it the key `ks`: it is inside an entry, and
if that is the key field, the change replaces the key by one with the same text. -/
def KeepsKey (kf ks : String) (ch : Change) (rel : List PathSeg) : Prop :=
  ∃ k rest, rel = .key k :: rest ∧
    (k = kf → rest = [] ∧ ch.op = .change ∧ keyValString ch.new = some ks)

theorem KeepsKey.exists_cons {kf ks : String} {ch : Change} {rel : List PathSeg}
    (hk : KeepsKey kf ks ch rel) : ∃ s rest, rel = s :: rest := by
  obtain ⟨k, rest, rfl, -⟩ := hk
  exact ⟨_, rest, rfl⟩

theorem KeepsKey.elemKey {kf ks : String} {ch : Change} {rel : List PathSeg} {v u : Json}
    (hk : KeepsKey kf ks ch rel) (hv : elemKey kf v = some ks) (hu : applyAt ch v rel = .ok u) :
    elemKey kf u = some ks := by
  obtain ⟨k, rest, rfl, hkeep⟩ := hk
  cases v with
  | null | bool | num | str | arr => cases hv
  | obj m =>
    by_cases hkf : k = kf
    · obtain ⟨rfl, hop, hnew⟩ := hkeep hkf
      subst hkf
      simp only [applyAt, applyStep_obj, applyEntry, hop] at hu
      cases hu
      simpa [Letopis.elemKey, lookup_setEntry] using hnew
    · -- another entry is edited
      simp only [applyAt, applyStep_obj] at hu
      cases hentry : applyEntry ch (m.lookup k) rest with
      | error e => simp [hentry, Except.map] at hu
      | ok entry =>
        simp only [hentry, Except.map, Except.ok.injEq] at hu
        subst hu
        simpa only [Letopis.elemKey, lookup_setEntry, if_neg (Ne.symm hkf)] using hv

theorem indexOfKey_split {kf ks : String} {l m : List Json} {v : Json}
    (hl : ∀ x ∈ l, elemKey kf x ≠ some ks) (hv : elemKey kf v = some ks) :
    indexOfKey (l ++ v :: m) kf ks = some l.length := by
  have hnone : l.findIdx? (fun el => elemKey kf el = some ks) = none := by
    simpa [findIdx?_eq_none_iff] using hl
  rw [indexOfKey, findIdx?_append, hnone, findIdx?_cons]
  simp [hv]

theorem Edits.keyed {pre : List PathSeg} {chs : List Change} {kf ks : String} {v w : Json}
    {l m : List Json} (hl : ∀ x ∈ l, elemKey kf x ≠ some ks) (hv : elemKey kf v = some ks)
    (hkeep : ∀ ch ∈ chs, ∀ rel, parsePath ch.path = .ok (pre ++ [.keyed kf ks] ++ rel) →
      KeepsKey kf ks ch rel)
    (h : Edits (pre ++ [.keyed kf ks]) chs v w) :
    Edits pre chs (.arr (l ++ v :: m)) (.arr (l ++ w :: m)) := by
  induction chs generalizing v with
  | nil =>
    obtain rfl : v = w := h
    rfl
  | cons ch chs ih =>
    obtain ⟨rel, u, hp, hu, hrest⟩ := h
    have hk := hkeep ch mem_cons_self rel hp
    have hukey := hk.elemKey hv hu
    refine ⟨.keyed kf ks :: rel, .arr (l ++ u :: m), by simpa using hp, ?_,
      ih hukey (fun c hc => hkeep c (mem_cons_of_mem ch hc)) hrest⟩
    obtain ⟨s, rest, rfl⟩ := hk.exists_cons
    simp only [applyAt] at hu
    have hget : (l ++ v :: m).getD l.length .null = v := by simp
    simp only [applyAt, applyStep, isEmpty_cons, Bool.false_eq_true, if_false,
      indexOfKey_split hl hv, hget, hu]
    simp

/-- Selectors can be appended to the path. -/
def Opens (path : String) (pre : List PathSeg) : Prop :=
  ∀ kf kv, PathSeg.Mild (.keyed kf kv) →
    parsePath (keyedPath path kf kv) = .ok (pre ++ [.keyed kf kv])

theorem opens_root : Opens "" [] := by
  intro kf kv hmild
  have hroot : parsePath "" = .ok [] := rfl
  have h := parsePath_keyedPath hroot (by simp : '.' ∉ "".toList) (by simp) hmild
  simpa [childPath] using h

theorem opens_childPath {path key : String} {pre : List PathSeg} (hpre : parsePath path = .ok pre)
    (hk : PlainKey key) : Opens (childPath path key) (pre ++ [.key key]) := by
  intro kf kv hmild
  obtain ⟨hne, hdig, hdot, hbr⟩ := hk
  have h := parsePath_keyedPath hpre hdot hbr hmild
  rw [if_neg hne, keyOrIndex_key fun _ => hdig] at h
  simpa using h

theorem opens_indexPath {path : String} {i : Nat} {pre : List PathSeg}
    (hpre : parsePath path = .ok pre) (hi : i < 2 ^ 63) :
    Opens (indexPath path i) (pre ++ [.index i]) := by
  intro kf kv hmild
  have h := parsePath_keyedPath hpre (notMem_repr (i := i) rfl) (notMem_repr rfl) hmild
  rw [if_neg Nat.repr_ne_empty, keyOrIndex_repr hi] at h
  simpa [indexPath] using h

/-! ### Runs of additions and removals -/

section

variable {path : String} {pre : List PathSeg}

theorem edits_addTail (hpre : parsePath path = .ok pre) (l xs : List Json)
    (hlen : l.length + xs.length < 2 ^ 63) :
    Edits pre ((xs.zipIdx l.length).map fun p => .addAt (indexPath path p.2) p.1) (.arr l)
      (.arr (l ++ xs)) := by
  induction xs generalizing l with
  | nil => simp [Edits]
  | cons x xs ih =>
    rw [length_cons] at hlen
    have hadd : Edits pre [.addAt (indexPath path l.length) x] (.arr l) (.arr (l ++ [x])) := by
      refine .single (parsePath_indexPath hpre (by omega)) ?_
      simp [applyAt, applyStep, Change.addAt]
    have hrest := ih (l ++ [x]) (by simp; omega)
    simp only [length_append, length_singleton, append_assoc,
      singleton_append] at hrest
    simpa [zipIdx_cons] using hadd.append hrest

/-- Removing a run of elements at the end, in descending order. What the changes say the
elements were does not matter. -/
theorem edits_removeTail (hpre : parsePath path = .ok pre) (l : List Json) {xs ys : List Json}
    (hxy : xs.length = ys.length) (hlen : l.length + xs.length < 2 ^ 63) :
    Edits pre ((xs.zipIdx l.length).reverse.map fun p => .removeAt (indexPath path p.2) p.1)
      (.arr (l ++ ys)) (.arr l) := by
  induction xs using List.reverseRecOn generalizing ys with
  | nil =>
    obtain rfl := length_eq_zero_iff.mp hxy.symm
    simp [Edits]
  | append_singleton xs x ih =>
    obtain rfl | ⟨ys, y, rfl⟩ := ys.eq_nil_or_concat'
    · simp at hxy
    · simp only [length_append, length_singleton, Nat.add_right_cancel_iff] at hxy hlen
      have hrm : Edits pre [.removeAt (indexPath path (l.length + xs.length)) x]
          (.arr (l ++ (ys ++ [y]))) (.arr (l ++ ys)) := by
        refine .single (parsePath_indexPath hpre (by omega)) ?_
        have hin : ¬ (((l.length + xs.length : Nat) : Int) < 0 ∨
            ((l ++ (ys ++ [y])).length : Int) ≤ (l.length + xs.length : Nat)) := by
          simp only [length_append, length_singleton]
          omega
        simp only [applyAt, applyStep, isEmpty_nil, if_true, Change.removeAt, hin, if_false,
          Int.toNat_natCast]
        rw [hxy, ← append_assoc, ← length_append,
          eraseIdx_append_of_length_le le_rfl]
        simp
      have hrest := ih hxy (by omega)
      simpa [zipIdx_append] using hrm.append hrest

theorem edits_addKeyed (hopen : Opens path pre) {kf : String} {xs : List Json} (l : List Json)
    (hmild : ∀ x ∈ xs, PathSeg.Mild (.keyed kf ((elemKey kf x).getD ""))) :
    Edits pre (xs.map fun el => .addAt (keyedPath path kf ((elemKey kf el).getD "")) el) (.arr l)
      (.arr (l ++ xs)) := by
  induction xs generalizing l with
  | nil => simp [Edits]
  | cons x xs ih =>
    obtain ⟨hx, hxs⟩ := forall_mem_cons.mp hmild
    have hadd : Edits pre [.addAt (keyedPath path kf ((elemKey kf x).getD "")) x] (.arr l)
        (.arr (l ++ [x])) :=
      .single (hopen _ _ hx) (by simp [applyAt, applyStep, Change.addAt])
    simpa using hadd.append (ih (l := l ++ [x]) hxs)

end

end Letopis
