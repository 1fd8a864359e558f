import Mathlib.Data.List.Nodup
import Mathlib.Data.List.Perm.Subperm
import Letopis.Diff.Apply

/-!
# Arrays up to the order of their keyed elements

An array at a path with a configured key field is compared by key when all its elements carry a
unique key, and then the order of its elements is not part of the difference. Two notions say
what is left. `rearrange opts path r b` is the value `b` with every array that is compared by
key put into the order the other value has: known elements in `r`'s order, then the new ones in
`b`'s order. `alike opts path r a` says that `r` is `a` up to the order of the elements of such
arrays. Rearranging after an alike value gives that value back (`rearrange_of_alike`).

`compared` runs a check over all the array comparisons that a difference makes.
-/

namespace Letopis

open SortedAssoc List

/-- The key field by which two arrays at a path are compared, where they are not compared by
position. -/
def DiffOptions.keyFor (opts : DiffOptions) (path : String) (aa ba : List Json) : Option String :=
  (opts.arrayKeys.lookup path).filter fun kf => keyable aa kf && keyable ba kf

section

variable {opts : DiffOptions} {path : String} {aa ba : List Json}

theorem diffValue_of_eq {a b : Json} (h : a = b) : diffValue opts path a b = [] := by
  unfold diffValue
  exact if_pos h

theorem diffValue_arr_keyed {kf : String} (hne : Json.arr aa ≠ .arr ba)
    (hkf : opts.keyFor path aa ba = some kf) : diffValue opts path (.arr aa) (.arr ba) =
      diffKeyed opts path kf aa ba ++ addedKeyed path kf aa ba := by
  rw [diffValue, if_neg hne]
  simp only [DiffOptions.keyFor] at hkf
  simp only [hkf]

theorem diffValue_arr_index (hne : Json.arr aa ≠ .arr ba)
    (hkf : opts.keyFor path aa ba = none) : diffValue opts path (.arr aa) (.arr ba) =
      diffElems opts path 0 aa ba ++ arrayTail path aa ba := by
  rw [diffValue, if_neg hne]
  simp only [DiffOptions.keyFor] at hkf
  simp only [hkf]

end

/-- The path of an element that is matched by key. -/
def elemPath (path keyField : String) (el : Json) : String :=
  keyedPath path keyField ((elemKey keyField el).getD "")

/-- The first element with the same key. -/
def sameKey (keyField : String) (el : Json) (arr : List Json) : Option Json :=
  arr.find? fun x => elemKey keyField x = elemKey keyField el

/-- The elements in the order of `aa` where their key occurs there, then the others. -/
def keyOrder (keyField : String) (aa bs : List Json) : List Json :=
  aa.filterMap (fun el => sameKey keyField el bs) ++
    bs.filter fun el => elemKey keyField el ∉ aa.map (elemKey keyField)

mutual

/-- The second value, with every array that is compared by key rearranged after the first. -/
def rearrange (opts : DiffOptions) (path : String) (a b : Json) : Json :=
  match a, b with
  | .obj am, .obj bm => .obj (rearrangeFields opts path am bm)
  | .arr aa, .arr ba =>
    match opts.keyFor path aa ba with
    | some kf => .arr (keyOrder kf aa (rearrangeKeyed opts path kf aa ba))
    | none => .arr (rearrangeElems opts path 0 aa ba)
  | _, b => b
termination_by structural b

/-- The entries that both objects have, each rearranged. -/
def rearrangeFields (opts : DiffOptions) (path : String) (am bm : Fields) : Fields :=
  match bm with
  | [] => []
  | (k, bv) :: bm =>
    (k, match am.lookup k with
      | some av => rearrange opts (childPath path k) av bv
      | none => bv) :: rearrangeFields opts path am bm
termination_by structural bm

/-- The elements that both arrays have by position, each rearranged. -/
def rearrangeElems (opts : DiffOptions) (path : String) (i : Nat) (aa ba : List Json) :
    List Json :=
  match aa, ba with
  | av :: aa, bv :: ba =>
    rearrange opts (indexPath path i) av bv :: rearrangeElems opts path (i + 1) aa ba
  | _, ba => ba
termination_by structural ba

/-- The elements that both arrays have by key, each rearranged. -/
def rearrangeKeyed (opts : DiffOptions) (path keyField : String) (aa ba : List Json) :
    List Json :=
  match ba with
  | [] => []
  | bv :: ba =>
    (match sameKey keyField bv aa with
      | some av => rearrange opts (elemPath path keyField bv) av bv
      | none => bv) :: rearrangeKeyed opts path keyField aa ba
termination_by structural ba

end

mutual

/-- The first value is the second up to the order of the elements of arrays with a configured
key, where all of them carry it. -/
def alike (opts : DiffOptions) (path : String) (r a : Json) : Bool :=
  match r, a with
  | .obj rm, .obj am => alikeFields opts path rm am
  | .arr ra, .arr aa =>
    match opts.keyFor path aa aa with
    | some kf => ra.length = aa.length && alikeKeyed opts path kf ra aa
    | none => alikeElems opts path 0 ra aa
  | r, a => r = a
termination_by structural a

/-- The same keys, with values that are alike. -/
def alikeFields (opts : DiffOptions) (path : String) (rm am : Fields) : Bool :=
  match rm, am with
  | [], [] => true
  | (k, rv) :: rm, (l, av) :: am =>
    k = l && alike opts (childPath path l) rv av && alikeFields opts path rm am
  | _, _ => false
termination_by structural am

/-- Elements that are alike position by position. -/
def alikeElems (opts : DiffOptions) (path : String) (i : Nat) (ra aa : List Json) : Bool :=
  match ra, aa with
  | [], [] => true
  | rv :: ra, av :: aa =>
    alike opts (indexPath path i) rv av && alikeElems opts path (i + 1) ra aa
  | _, _ => false
termination_by structural aa

/-- For every element on the right one on the left with the same key that is alike. -/
def alikeKeyed (opts : DiffOptions) (path keyField : String) (ra aa : List Json) : Bool :=
  match aa with
  | [] => true
  | av :: aa =>
    (ra.any fun rv => elemKey keyField rv = elemKey keyField av &&
      alike opts (elemPath path keyField av) rv av) && alikeKeyed opts path keyField ra aa
termination_by structural aa

end

section Compared

-- what is checked: a path, the array that is edited there, and the two that are compared
variable (ok : String → List Json → List Json → List Json → Bool)

mutual

/-- Every comparison of two arrays that the difference of `a` and `b` makes passes the check,
together with the array at the same place of `r`. -/
def compared (opts : DiffOptions) (path : String) (r a b : Json) : Bool :=
  match r, a, b with
  | .obj rm, .obj am, .obj bm => comparedFields opts path rm am bm
  | .arr ra, .arr aa, .arr ba =>
    ok path ra aa ba &&
      match opts.keyFor path aa ba with
      | some kf => comparedKeyed opts path kf ra aa ba
      | none => comparedElems opts path 0 ra aa ba
  | _, _, _ => true
termination_by structural a

/-- The comparisons made in the entries. -/
def comparedFields (opts : DiffOptions) (path : String) (rm am bm : Fields) : Bool :=
  match am with
  | [] => true
  | (k, av) :: am =>
    (match rm.lookup k, bm.lookup k with
      | some rv, some bv => compared opts (childPath path k) rv av bv
      | _, _ => true) && comparedFields opts path rm am bm
termination_by structural am

/-- The comparisons made in the elements, by position. -/
def comparedElems (opts : DiffOptions) (path : String) (i : Nat) (ra aa ba : List Json) : Bool :=
  match ra, aa, ba with
  | rv :: ra, av :: aa, bv :: ba =>
    compared opts (indexPath path i) rv av bv && comparedElems opts path (i + 1) ra aa ba
  | _, _, _ => true
termination_by structural aa

/-- The comparisons made in the elements, by key. -/
def comparedKeyed (opts : DiffOptions) (path keyField : String) (ra aa ba : List Json) : Bool :=
  match aa with
  | [] => true
  | av :: aa =>
    (match sameKey keyField av ra, sameKey keyField av ba with
      | some rv, some bv => compared opts (elemPath path keyField av) rv av bv
      | _, _ => true) && comparedKeyed opts path keyField ra aa ba
termination_by structural aa

end

end Compared

/-! ### Keys of elements -/

variable {arr : List Json} {kf : String}

theorem keyable_iff : keyable arr kf = true ↔
    (∀ el ∈ arr, ∃ ks, elemKey kf el = some ks) ∧ (arr.map (elemKey kf)).Nodup := by
  simp [keyable, Option.isSome_iff_exists]

theorem eq_of_elemKey_eq (h : (arr.map (elemKey kf)).Nodup) {x y : Json} (hx : x ∈ arr)
    (hy : y ∈ arr) (hkey : elemKey kf x = elemKey kf y) : x = y :=
  inj_on_of_nodup_map h hx hy hkey

theorem mem_of_sameKey {el x : Json} (h : sameKey kf el arr = some x) :
    x ∈ arr ∧ elemKey kf x = elemKey kf el :=
  ⟨mem_of_find?_eq_some h, by simpa using find?_some h⟩

theorem sameKey_eq_some {el x : Json} (h : (arr.map (elemKey kf)).Nodup) (hx : x ∈ arr)
    (hkey : elemKey kf x = elemKey kf el) : sameKey kf el arr = some x := by
  have hsome : (sameKey kf el arr).isSome := by
    rw [sameKey, find?_isSome]
    exact ⟨x, hx, by simpa using hkey⟩
  obtain ⟨y, hy⟩ := Option.isSome_iff_exists.mp hsome
  obtain ⟨hmem, hsame⟩ := mem_of_sameKey hy
  rw [hy, eq_of_elemKey_eq h hmem hx (hsame.trans hkey.symm)]

theorem sameKey_eq_none {el : Json} :
    sameKey kf el arr = none ↔ elemKey kf el ∉ arr.map (elemKey kf) := by
  rw [sameKey, find?_eq_none]
  simp

/-! ### Rearranging -/

/-- One entry, rearranged. -/
def rearrangeEntry (opts : DiffOptions) (path : String) (am : Fields) (p : String × Json) :
    String × Json :=
  (p.1, match am.lookup p.1 with
    | some av => rearrange opts (childPath path p.1) av p.2
    | none => p.2)

theorem rearrangeFields_eq_map (opts : DiffOptions) (path : String) (am bm : Fields) :
    rearrangeFields opts path am bm = bm.map (rearrangeEntry opts path am) := by
  induction bm with
  | nil => rfl
  | cons p bm ih => rw [rearrangeFields, ih, map_cons, rearrangeEntry]

/-- One element that is matched by key, rearranged. -/
def rearrangeElem (opts : DiffOptions) (path kf : String) (aa : List Json) (bv : Json) : Json :=
  match sameKey kf bv aa with
  | some av => rearrange opts (elemPath path kf bv) av bv
  | none => bv

theorem rearrangeKeyed_eq_map (opts : DiffOptions) (path kf : String) (aa ba : List Json) :
    rearrangeKeyed opts path kf aa ba = ba.map (rearrangeElem opts path kf aa) := by
  induction ba with
  | nil => rfl
  | cons bv ba ih => rw [rearrangeKeyed, ih, map_cons, rearrangeElem]

private theorem keyValString_rearrange (opts : DiffOptions) (path : String) (a b : Json) :
    keyValString (rearrange opts path a b) = keyValString b := by
  unfold rearrange
  split
  · rfl
  · split <;> rfl
  · rfl

theorem map_fst_rearrangeFields (opts : DiffOptions) (path : String) (am bm : Fields) :
    (rearrangeFields opts path am bm).map Prod.fst = bm.map Prod.fst := by
  rw [rearrangeFields_eq_map, map_map]
  rfl

theorem lookup_rearrangeFields (opts : DiffOptions) (path : String) (am bm : Fields) (k : String) :
    (rearrangeFields opts path am bm).lookup k =
      (bm.lookup k).map fun bv => (rearrangeEntry opts path am (k, bv)).2 := by
  induction bm with
  | nil => rfl
  | cons p bm ih =>
    rw [rearrangeFields_eq_map] at ih ⊢
    have hfst : (rearrangeEntry opts path am p).1 = p.1 := rfl
    rw [map_cons, lookup_cons_eq, lookup_cons_eq, ih, hfst]
    split_ifs with hk
    · subst hk
      rfl
    · rfl

theorem elemKey_rearrange (opts : DiffOptions) (path kf : String) (a b : Json) :
    elemKey kf (rearrange opts path a b) = elemKey kf b := by
  unfold rearrange
  split
  · rename_i am bm
    simp only [elemKey, lookup_rearrangeFields]
    cases bm.lookup kf with
    | none => rfl
    | some bv =>
      simp only [Option.map_some, Option.bind_some, rearrangeEntry]
      split
      · exact keyValString_rearrange opts _ _ bv
      · rfl
  · split <;> rfl
  · rfl

theorem elemKey_rearrangeElem (opts : DiffOptions) (path kf : String) (aa : List Json)
    (bv : Json) : elemKey kf (rearrangeElem opts path kf aa bv) = elemKey kf bv := by
  unfold rearrangeElem
  split
  · exact elemKey_rearrange opts _ kf _ bv
  · rfl

theorem sameKey_rearrangeKeyed {opts : DiffOptions} {path : String} {aa ba : List Json}
    (ha : (aa.map (elemKey kf)).Nodup) {av : Json} (hav : av ∈ aa) :
    sameKey kf av (rearrangeKeyed opts path kf aa ba) =
      (sameKey kf av ba).map fun bv => rearrange opts (elemPath path kf av) av bv := by
  have hp : ((fun x => decide (elemKey kf x = elemKey kf av)) ∘ rearrangeElem opts path kf aa) =
      fun x => decide (elemKey kf x = elemKey kf av) := by
    funext x
    simp only [Function.comp, elemKey_rearrangeElem]
  rw [rearrangeKeyed_eq_map, sameKey, find?_map, hp, ← sameKey]
  cases hbv : sameKey kf av ba with
  | none => rfl
  | some bv =>
    have hkey := (mem_of_sameKey hbv).2
    simp only [Option.map_some, rearrangeElem, sameKey_eq_some ha hav hkey.symm, elemPath, hkey]

theorem filter_rearrangeKeyed (opts : DiffOptions) (path kf : String) (aa ba : List Json) :
    (rearrangeKeyed opts path kf aa ba).filter (fun el => elemKey kf el ∉ aa.map (elemKey kf)) =
      ba.filter fun el => elemKey kf el ∉ aa.map (elemKey kf) := by
  rw [rearrangeKeyed_eq_map, filter_map]
  have hp : ((fun el => decide (elemKey kf el ∉ aa.map (elemKey kf))) ∘
      rearrangeElem opts path kf aa) = fun el => decide (elemKey kf el ∉ aa.map (elemKey kf)) := by
    funext el
    simp only [Function.comp, elemKey_rearrangeElem]
  rw [hp]
  refine (map_congr_left fun el hel => ?_).trans (map_id _)
  have hnone := sameKey_eq_none.mpr (of_decide_eq_true (mem_filter.mp hel).2)
  simp only [rearrangeElem, hnone, id]

/-! ### Values that are alike -/

section Alike

variable {opts : DiffOptions}

variable {path kf : String} {ra aa : List Json}

theorem alikeFields_iff {rm am : Fields} : alikeFields opts path rm am = true ↔
    List.Forall₂ (fun p q => p.1 = q.1 ∧ alike opts (childPath path q.1) p.2 q.2 = true) rm am := by
  induction am generalizing rm with
  | nil => cases rm <;> simp [alikeFields]
  | cons q am ih =>
    cases rm with
    | nil => simp [alikeFields]
    | cons p rm => simp [alikeFields, ih, and_assoc]

theorem alikeElems_iff {i : Nat} :
    alikeElems opts path i ra aa = true ↔ ra.length = aa.length ∧ ∀ n rv av, ra[n]? = some rv →
      aa[n]? = some av → alike opts (indexPath path (i + n)) rv av = true := by
  induction aa generalizing ra i with
  | nil => cases ra <;> simp [alikeElems]
  | cons av aa ih =>
    cases ra with
    | nil => simp [alikeElems]
    | cons rv ra =>
      simp only [alikeElems, Bool.and_eq_true, ih, length_cons, Nat.succ_inj]
      constructor
      · rintro ⟨hhead, hlen, htail⟩
        refine ⟨hlen, fun n x y hx hy => ?_⟩
        cases n with
        | zero =>
          cases hx
          cases hy
          exact hhead
        | succ n => simpa [Nat.add_assoc, Nat.add_comm 1] using htail n x y hx hy
      · rintro ⟨hlen, hall⟩
        refine ⟨hall 0 rv av rfl rfl, hlen, fun n x y hx hy => ?_⟩
        simpa [Nat.add_assoc, Nat.add_comm 1] using hall (n + 1) x y hx hy

theorem alikeKeyed_iff :
    alikeKeyed opts path kf ra aa = true ↔ ∀ av ∈ aa, ∃ rv ∈ ra, elemKey kf rv = elemKey kf av ∧
      alike opts (elemPath path kf av) rv av = true := by
  induction aa with
  | nil => simp [alikeKeyed]
  | cons av aa ih => simp [alikeKeyed, ih]

theorem alike_refl (path : String) (a : Json) : alike opts path a a = true := by
  induction a using Json.induction generalizing path with
  | null | bool | num | str => simp [alike]
  | arr xs ih =>
    unfold alike
    split
    · simp only [Bool.and_eq_true, decide_eq_true_eq, true_and, alikeKeyed_iff]
      exact fun x hx => ⟨x, hx, rfl, ih x hx _⟩
    · refine alikeElems_iff.mpr ⟨rfl, fun n rv av hr ha => ?_⟩
      cases Option.some.inj (hr.symm.trans ha)
      exact ih rv (mem_of_getElem? hr) _
  | obj kvs ih =>
    rw [alike, alikeFields_iff]
    exact forall₂_same.mpr fun p hp => ⟨rfl, ih p hp _⟩

private theorem keyValString_of_alike {r a : Json} (h : alike opts path r a = true) :
    keyValString r = keyValString a := by
  unfold alike at h
  split at h
  · rfl
  · rfl
  · rw [of_decide_eq_true h]

theorem lookup_of_alikeFields {rm am : Fields} (h : alikeFields opts path rm am = true)
    (k : String) :
    (rm.lookup k = none ∧ am.lookup k = none) ∨ ∃ rv av, rm.lookup k = some rv ∧
      am.lookup k = some av ∧ alike opts (childPath path k) rv av = true := by
  rw [alikeFields_iff] at h
  induction h with
  | nil => exact .inl ⟨rfl, rfl⟩
  | @cons p q rm am hhead _ ih =>
    rw [lookup_cons_eq, lookup_cons_eq, hhead.1]
    split_ifs with hk
    · exact .inr ⟨p.2, q.2, rfl, rfl, hk ▸ hhead.2⟩
    · exact ih

theorem map_fst_of_alikeFields {rm am : Fields} (h : alikeFields opts path rm am = true) :
    rm.map Prod.fst = am.map Prod.fst := by
  rw [alikeFields_iff] at h
  induction h with
  | nil => rfl
  | cons hhead _ ih => rw [map_cons, map_cons, hhead.1, ih]

private theorem elemKey_of_alike {r a : Json} (h : alike opts path r a = true) :
    elemKey kf r = elemKey kf a := by
  unfold alike at h
  split at h
  · rename_i rm am
    simp only [elemKey]
    obtain ⟨hrv, hav⟩ | ⟨rv, av, hrv, hav, hval⟩ := lookup_of_alikeFields h kf
    · rw [hrv, hav]
    · rw [hrv, hav]
      exact keyValString_of_alike hval
  · rfl
  · rw [of_decide_eq_true h]

theorem keyFor_eq_some {ba : List Json} : opts.keyFor path aa ba = some kf ↔
    opts.arrayKeys.lookup path = some kf ∧ keyable aa kf = true ∧ keyable ba kf = true := by
  simp [DiffOptions.keyFor, Option.filter_eq_some_iff]

/-- What being alike means for an array whose elements carry the configured key: the same keys
in some order, and elements with the same key are alike. -/
theorem alike_arr_keyed (hkf : opts.arrayKeys.lookup path = some kf) (haa : keyable aa kf = true)
    (h : alike opts path (.arr ra) (.arr aa) = true) :
    keyable ra kf = true ∧ (ra.map (elemKey kf)).Perm (aa.map (elemKey kf)) ∧
      ∀ rv ∈ ra, ∀ av ∈ aa, elemKey kf rv = elemKey kf av →
        alike opts (elemPath path kf av) rv av = true := by
  simp only [alike, keyFor_eq_some.mpr ⟨hkf, haa, haa⟩, Bool.and_eq_true, decide_eq_true_eq,
    alikeKeyed_iff] at h
  obtain ⟨hlen, hmatch⟩ := h
  obtain ⟨hsome, hnodup⟩ := keyable_iff.mp haa
  have hsub : aa.map (elemKey kf) ⊆ ra.map (elemKey kf) := by
    intro ks hks
    obtain ⟨av, hav, rfl⟩ := mem_map.mp hks
    obtain ⟨rv, hrv, hkey, -⟩ := hmatch av hav
    exact mem_map.mpr ⟨rv, hrv, hkey⟩
  have hperm : (ra.map (elemKey kf)).Perm (aa.map (elemKey kf)) :=
    ((subperm_of_subset hnodup hsub).perm_of_length_le (by simp [hlen])).symm
  have hrnodup : (ra.map (elemKey kf)).Nodup := hperm.nodup_iff.mpr hnodup
  refine ⟨keyable_iff.mpr ⟨fun rv hrv => ?_, hrnodup⟩, hperm, fun rv hrv av hav hkey => ?_⟩
  · obtain ⟨av, hav, hkey⟩ := mem_map.mp (hperm.subset (mem_map_of_mem hrv))
    rw [← hkey]
    exact hsome av hav
  · obtain ⟨rv', hrv', hkey', halike⟩ := hmatch av hav
    rwa [eq_of_elemKey_eq hrnodup hrv hrv' (hkey.trans hkey'.symm)]

/-- What being alike means for the other arrays: elements at the same position are alike. -/
theorem alike_arr_elems (hnone : opts.keyFor path aa aa = none)
    (h : alike opts path (.arr ra) (.arr aa) = true) : ra.length = aa.length ∧
      ∀ n rv av, ra[n]? = some rv → aa[n]? = some av →
        alike opts (indexPath path n) rv av = true := by
  simpa only [alike, hnone, alikeElems_iff, Nat.zero_add] using h

/-- Whether an array can be compared by key depends on the keys of its elements only. -/
theorem keyable_congr (h : ra.map (elemKey kf) = aa.map (elemKey kf)) :
    keyable ra kf = keyable aa kf := by
  have hall (arr : List Json) : (arr.all fun el => (elemKey kf el).isSome) =
      (arr.map (elemKey kf)).all Option.isSome := by
    rw [all_map]
    rfl
  rw [keyable, keyable, hall, hall, h]

theorem keyFor_of_alike (h : alike opts path (.arr ra) (.arr aa) = true) (ba : List Json) :
    opts.keyFor path ra ba = opts.keyFor path aa ba := by
  unfold DiffOptions.keyFor
  cases hkf : opts.arrayKeys.lookup path with
  | none => rfl
  | some kf =>
    by_cases haa : keyable aa kf = true
    · have hra := (alike_arr_keyed hkf haa h).1
      simp only [Option.filter_some, hra, haa]
    · have hnone : opts.keyFor path aa aa = none := by simp [DiffOptions.keyFor, hkf, haa]
      obtain ⟨hlen, helems⟩ := alike_arr_elems hnone h
      have hkeys : ra.map (elemKey kf) = aa.map (elemKey kf) := by
        refine ext_getElem (by simpa using hlen) fun n hr ha => ?_
        rw [length_map] at hr ha
        rw [getElem_map, getElem_map]
        exact elemKey_of_alike (helems n _ _ (getElem?_eq_getElem hr)
          (getElem?_eq_getElem ha))
      simp only [Option.filter_some, keyable_congr hkeys]

private theorem rearrangeElems_eq_left {i : Nat} {ba : List Json} (hlen : ra.length = ba.length)
    (h : ∀ n rv bv, ra[n]? = some rv → ba[n]? = some bv →
      rearrange opts (indexPath path (i + n)) rv bv = rv) :
    rearrangeElems opts path i ra ba = ra := by
  induction ba generalizing ra i with
  | nil =>
    obtain rfl := length_eq_zero_iff.mp hlen
    rfl
  | cons bv ba ih =>
    cases ra with
    | nil => cases hlen
    | cons rv ra =>
      have hhead : rearrange opts (indexPath path i) rv bv = rv := h 0 rv bv rfl rfl
      rw [rearrangeElems, hhead, ih (Nat.succ_inj.mp hlen) fun n x y hx hy => ?_]
      simpa [Nat.add_assoc, Nat.add_comm 1] using h (n + 1) x y hx hy

/-- What is alike already is left as it is. -/
theorem rearrange_of_alike {r b : Json} (hb : b.WF) (h : alike opts path r b = true) :
    rearrange opts path r b = r := by
  induction b using Json.induction generalizing r path with
  | null | bool | num | str => cases r <;> simp_all [alike, rearrange]
  | arr ys ih =>
    cases r with
    | null | bool | num | str | obj => simp [alike] at h
    | arr ra =>
      have hys := (Json.wf_arr_iff.mp hb).2
      rw [rearrange, keyFor_of_alike h]
      split
      · rename_i kf hkf
        obtain ⟨hkf, hkeyable, -⟩ := keyFor_eq_some.mp hkf
        obtain ⟨hra, hperm, hmatch⟩ := alike_arr_keyed hkf hkeyable h
        obtain ⟨-, hnodup⟩ := keyable_iff.mp hra
        -- every element is found, and no element is new
        have hfound : ∀ rv ∈ ra, sameKey kf rv (rearrangeKeyed opts path kf ra ys) = some rv := by
          intro rv hrv
          obtain ⟨bv, hbv, hkey⟩ := mem_map.mp (hperm.subset (mem_map_of_mem hrv))
          rw [sameKey_rearrangeKeyed hnodup hrv,
            sameKey_eq_some (keyable_iff.mp hkeyable).2 hbv hkey, Option.map_some]
          have hpath : elemPath path kf rv = elemPath path kf bv := by simp only [elemPath, hkey]
          rw [hpath, ih bv hbv (hys bv hbv) (hmatch rv hrv bv hbv hkey.symm)]
        have hnew : (rearrangeKeyed opts path kf ra ys).filter
            (fun el => elemKey kf el ∉ ra.map (elemKey kf)) = [] := by
          rw [filter_rearrangeKeyed, filter_eq_nil_iff]
          intro bv hbv
          simpa using hperm.symm.subset (mem_map_of_mem hbv)
        rw [keyOrder, hnew, append_nil, filterMap_congr hfound, filterMap_some]
      · rename_i hnone
        obtain ⟨hlen, hmatch⟩ := alike_arr_elems hnone h
        rw [rearrangeElems_eq_left hlen fun n rv bv hr hb => ?_]
        rw [Nat.zero_add]
        exact ih bv (mem_of_getElem? hb) (hys bv (mem_of_getElem? hb))
          (hmatch n rv bv hr hb)
  | obj kvs ih =>
    cases r with
    | null | bool | num | str | arr => simp [alike] at h
    | obj rm =>
      obtain ⟨hs, hkvs⟩ := Json.wf_obj_iff.mp hb
      rw [alike] at h
      have hkeys : rm.map Prod.fst = kvs.map Prod.fst := map_fst_of_alikeFields h
      rw [rearrange]
      congr 1
      refine ext_lookup ?_ ?_ fun k => ?_
      · rw [sorted_iff_keys] at hs ⊢
        rwa [map_fst_rearrangeFields]
      · rwa [sorted_iff_keys, hkeys, ← sorted_iff_keys]
      · rw [lookup_rearrangeFields]
        obtain ⟨hrv, hbv⟩ | ⟨rv, bv, hrv, hbv, hval⟩ := lookup_of_alikeFields h k
        · rw [hrv, hbv, Option.map_none]
        · have hmem := mem_of_lookup hbv
          simp only [hrv, hbv, Option.map_some, rearrangeEntry]
          rw [ih (k, bv) hmem (hkvs _ hmem) hval]

end Alike

/-! ### Checking the comparisons -/

section

variable {ok : String → List Json → List Json → List Json → Bool} {opts : DiffOptions}

variable {path : String}

theorem comparedFields_iff {rm am bm : Fields} :
    comparedFields ok opts path rm am bm = true ↔ ∀ p ∈ am, ∀ rv bv, rm.lookup p.1 = some rv →
      bm.lookup p.1 = some bv → compared ok opts (childPath path p.1) rv p.2 bv = true := by
  induction am with
  | nil => simp [comparedFields]
  | cons p am ih =>
    rw [comparedFields, Bool.and_eq_true, ih, forall_mem_cons]
    refine and_congr_left fun _ => ?_
    cases rm.lookup p.1 with
    | none => simp
    | some rv =>
      cases bm.lookup p.1 with
      | none => simp
      | some bv => simp

theorem comparedElems_iff {i : Nat} {ra aa ba : List Json} :
    comparedElems ok opts path i ra aa ba = true ↔ ∀ n rv av bv, ra[n]? = some rv →
      aa[n]? = some av → ba[n]? = some bv →
      compared ok opts (indexPath path (i + n)) rv av bv = true := by
  induction aa generalizing i ra ba with
  | nil => simp [comparedElems]
  | cons av aa ih =>
    cases ra with
    | nil => simp [comparedElems]
    | cons rv ra =>
      cases ba with
      | nil => simp [comparedElems]
      | cons bv ba =>
        rw [comparedElems, Bool.and_eq_true, ih]
        constructor
        · rintro ⟨hhead, htail⟩ n x y z hx hy hz
          cases n with
          | zero =>
            cases hx
            cases hy
            cases hz
            exact hhead
          | succ n => simpa [Nat.add_assoc, Nat.add_comm 1] using htail n x y z hx hy hz
        · intro h
          refine ⟨h 0 rv av bv rfl rfl rfl, fun n x y z hx hy hz => ?_⟩
          simpa [Nat.add_assoc, Nat.add_comm 1] using h (n + 1) x y z hx hy hz

theorem comparedKeyed_iff {kf : String} {ra aa ba : List Json} :
    comparedKeyed ok opts path kf ra aa ba = true ↔ ∀ av ∈ aa, ∀ rv bv,
      sameKey kf av ra = some rv → sameKey kf av ba = some bv →
      compared ok opts (elemPath path kf av) rv av bv = true := by
  induction aa with
  | nil => simp [comparedKeyed]
  | cons av aa ih =>
    rw [comparedKeyed, Bool.and_eq_true, ih, forall_mem_cons]
    refine and_congr_left fun _ => ?_
    cases sameKey kf av ra with
    | none => simp
    | some rv =>
      cases sameKey kf av ba with
      | none => simp
      | some bv => simp

/-- One check follows from another, for values of a kind that their parts have too. -/
theorem compared_imp {ok' : String → List Json → List Json → List Json → Bool} {D : Json → Prop}
    (harr : ∀ xs, D (.arr xs) → ∀ x ∈ xs, D x) (hobj : ∀ kvs, D (.obj kvs) → ∀ p ∈ kvs, D p.2)
    (himp : ∀ path ra aa ba, D (.arr aa) → D (.arr ba) → ok path ra aa ba = true →
      ok' path ra aa ba = true) {r a b : Json} (ha : D a) (hb : D b)
    (h : compared ok opts path r a b = true) : compared ok' opts path r a b = true := by
  induction a using Json.induction generalizing path r b with
  | null | bool | num | str => cases r <;> rfl
  | arr xs ih =>
    cases r with
    | null | bool | num | str | obj => rfl
    | arr rs =>
      cases b with
      | null | bool | num | str | obj => rfl
      | arr ys =>
        rw [compared, Bool.and_eq_true] at h ⊢
        refine ⟨himp path rs xs ys ha hb h.1, ?_⟩
        cases hkf : opts.keyFor path xs ys with
        | some kf =>
          simp only [hkf, comparedKeyed_iff] at h ⊢
          intro av hav rv bv hrv hbv
          exact ih av hav (harr xs ha av hav) (harr ys hb bv (mem_of_sameKey hbv).1)
            (h.2 av hav rv bv hrv hbv)
        | none =>
          simp only [hkf, comparedElems_iff] at h ⊢
          intro n rv av bv hrv hav hbv
          have hmem := mem_of_getElem? hav
          exact ih av hmem (harr xs ha av hmem) (harr ys hb bv (mem_of_getElem? hbv))
            (h.2 n rv av bv hrv hav hbv)
  | obj kvs ih =>
    cases r with
    | null | bool | num | str | arr => rfl
    | obj rm =>
      cases b with
      | null | bool | num | str | arr => rfl
      | obj bm =>
        rw [compared, comparedFields_iff] at h ⊢
        intro p hp rv bv hrv hbv
        exact ih p hp (hobj kvs ha p hp) (hobj bm hb (p.1, bv) (mem_of_lookup hbv))
          (h p hp rv bv hrv hbv)

theorem compared_self (hok : ∀ path aa ba, ok path aa aa ba = true) {a b : Json} (ha : a.WF) :
    compared ok opts path a a b = true := by
  induction a using Json.induction generalizing path b with
  | null | bool | num | str => rfl
  | arr xs ih =>
    have hxs := (Json.wf_arr_iff.mp ha).2
    cases b with
    | null | bool | num | str | obj => rfl
    | arr ys =>
      rw [compared, hok, Bool.true_and]
      split
      · rename_i kf hkf
        obtain ⟨-, hkeyable, -⟩ := keyFor_eq_some.mp hkf
        refine comparedKeyed_iff.mpr fun av hav rv bv hrv _ => ?_
        cases Option.some.inj
          (hrv.symm.trans (sameKey_eq_some (keyable_iff.mp hkeyable).2 hav rfl))
        exact ih _ hav (hxs _ hav)
      · refine comparedElems_iff.mpr fun n rv av bv hr ha _ => ?_
        cases Option.some.inj (hr.symm.trans ha)
        exact ih _ (mem_of_getElem? hr) (hxs _ (mem_of_getElem? hr))
  | obj kvs ih =>
    obtain ⟨hs, hkvs⟩ := Json.wf_obj_iff.mp ha
    cases b with
    | null | bool | num | str | arr => rfl
    | obj bm =>
      rw [compared, comparedFields_iff]
      intro p hp rv bv hrv _
      rw [lookup_of_mem hs hp] at hrv
      cases hrv
      exact ih p hp (hkvs p hp)

end

end Letopis
