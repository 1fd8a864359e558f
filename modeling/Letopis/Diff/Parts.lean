import Letopis.Diff.Edits
import Letopis.Diff.Rearrange

/-!
# Edits of objects and of arrays

What the changes between two objects, two arrays compared by position and two arrays compared by
key do, given what the changes between their parts do. They are applied to a value that is the
left side up to the order of its keyed arrays (`alike`), and give the right side, rearranged.

The changes between two objects are taken key by key (`diffMap_eq_flatMap`); edits at different
keys do not meet. Arrays compared by position are edited from the front, with what is done already
in front, and have a tail that is added in ascending or removed in descending order. In an array
compared by key each change looks its element up again, so what is carried along is which keys have
been dealt with (`keyedState`).
-/

namespace Letopis

open SortedAssoc List

/-! ### Objects -/

section

variable {path : String} {pre : List PathSeg} {opts : DiffOptions}

/-- The changes at one key of two objects. -/
def entryDiff (opts : DiffOptions) (path k : String) : Option Json → Option Json → List Change
  | some av, some bv => diffValue opts (childPath path k) av bv
  | some av, none => [.removeAt (childPath path k) av]
  | none, some bv => [.addAt (childPath path k) bv]
  | none, none => []

/-- The keys of two objects, in order. -/
def mergedKeys : Fields → Fields → List String
  | [], bm => bm.map Prod.fst
  | (k, _) :: am, bm =>
    (bm.filter fun p => p.1 < k).map Prod.fst ++ k :: mergedKeys am (bm.filter fun p => k < p.1)

variable {am bm : Fields} {ra ba aa l : List Json} {kf : String}

private theorem of_mem_mergedKeys {k : String} (h : k ∈ mergedKeys am bm) :
    (∃ p ∈ am, p.1 = k) ∨ ∃ p ∈ bm, p.1 = k := by
  induction am generalizing bm with
  | nil => exact .inr (mem_map.mp h)
  | cons p am ih =>
    rcases mem_append.mp h with h | h
    · obtain ⟨q, hq, rfl⟩ := mem_map.mp h
      exact .inr ⟨q, (mem_filter.mp hq).1, rfl⟩
    · rcases mem_cons.mp h with rfl | h
      · exact .inl ⟨p, mem_cons_self, rfl⟩
      · obtain ⟨q, hq, rfl⟩ | ⟨q, hq, rfl⟩ := ih h
        · exact .inl ⟨q, mem_cons_of_mem p hq, rfl⟩
        · exact .inr ⟨q, (mem_filter.mp hq).1, rfl⟩

theorem lookup_of_notMem_mergedKeys {k : String} (h : k ∉ mergedKeys am bm) :
    am.lookup k = none ∧ bm.lookup k = none := by
  induction am generalizing bm with
  | nil =>
    refine ⟨rfl, lookup_eq_none_iff.mpr fun p hp => ?_⟩
    simpa using ne_of_mem_of_not_mem (mem_map_of_mem hp) h |>.symm
  | cons p am ih =>
    simp only [mergedKeys, mem_append, mem_cons, not_or] at h
    obtain ⟨hlow, hne, hhigh⟩ := h
    obtain ⟨ham, hbm⟩ := ih hhigh
    refine ⟨by rw [lookup_cons_eq, if_neg hne, ham], ?_⟩
    rcases lt_or_gt_of_ne hne with hlt | hlt
    · cases hbv : bm.lookup k with
      | none => rfl
      | some bv =>
        have hmem : (k, bv) ∈ bm.filter fun q => q.1 < p.1 :=
          mem_filter.mpr ⟨mem_of_lookup hbv, decide_eq_true hlt⟩
        exact absurd (mem_map_of_mem hmem) hlow
    · rwa [lookup_filter_lt hlt] at hbm

/-- The diff of two objects, key by key. -/
theorem diffMap_eq_flatMap (ha : Sorted am) (hb : Sorted bm) :
    diffMap opts path am bm = (mergedKeys am bm).flatMap fun k =>
      entryDiff opts path k (am.lookup k) (bm.lookup k) := by
  induction am generalizing bm with
  | nil =>
    rw [diffMap, mergedKeys, flatMap_map, map_eq_flatMap]
    exact flatMap_congr fun p hp => by rw [lookup_of_mem hb hp]; rfl
  | cons p am ih =>
    obtain ⟨k, v⟩ := p
    obtain ⟨hk, ham⟩ := sorted_cons.mp ha
    have hlow : ∀ p ∈ bm.filter (fun p => p.1 < k), p ∈ bm ∧ p.1 < k := fun p hp =>
      (mem_filter.mp hp).imp_right of_decide_eq_true
    rw [diffMap, mergedKeys, flatMap_append, flatMap_cons, append_assoc]
    congr 1
    · rw [flatMap_map, map_eq_flatMap]
      refine flatMap_congr fun p hp => ?_
      obtain ⟨hp, hlt⟩ := hlow p hp
      have hnone : ((k, v) :: am).lookup p.1 = none :=
        lookup_eq_none_of_forall_lt (forall_mem_cons.mpr
          ⟨hlt, fun q hq => hlt.trans (hk q hq)⟩)
      rw [hnone, lookup_of_mem hb hp]
      rfl
    · congr 1
      · rw [lookup_cons_self]
        cases bm.lookup k <;> rfl
      · rw [ih ham (hb.filter _)]
        refine flatMap_congr fun k' hk' => ?_
        have hlt : k < k' := by
          obtain ⟨q, hq, rfl⟩ | ⟨q, hq, rfl⟩ := of_mem_mergedKeys hk'
          · exact hk q hq
          · exact of_decide_eq_true (mem_filter.mp hq).2
        rw [lookup_cons_eq, if_neg hlt.ne', lookup_filter_lt hlt]

theorem mem_diffMap_iff (ha : Sorted am) (hb : Sorted bm) {ch : Change} :
    ch ∈ diffMap opts path am bm ↔
      ∃ k, ch ∈ entryDiff opts path k (am.lookup k) (bm.lookup k) := by
  rw [diffMap_eq_flatMap ha hb, mem_flatMap]
  refine ⟨fun ⟨k, _, hk⟩ => ⟨k, hk⟩, fun ⟨k, hk⟩ => ⟨k, ?_, hk⟩⟩
  by_contra hnot
  obtain ⟨hav, hbv⟩ := lookup_of_notMem_mergedKeys hnot
  rw [hav, hbv] at hk
  exact absurd hk not_mem_nil

/-- A change of a field is at the field, which only one side has, or one between its two values. -/
theorem mem_entryDiff {k : String} {o o' : Option Json} {ch : Change}
    (h : ch ∈ entryDiff opts path k o o') :
    (ch.path = childPath path k ∧ (o ≠ none ∨ o' ≠ none) ∧ (o = none ∨ o' = none)) ∨
      ∃ v v', o = some v ∧ o' = some v' ∧ ch ∈ diffValue opts (childPath path k) v v' := by
  cases o with
  | none =>
    cases o' with
    | none => exact absurd h not_mem_nil
    | some v' => exact .inl ⟨congrArg Change.path (mem_singleton.mp h), by simp⟩
  | some v =>
    cases o' with
    | none => exact .inl ⟨congrArg Change.path (mem_singleton.mp h), by simp⟩
    | some v' => exact .inr ⟨v, v', rfl, rfl, h⟩

theorem plainKey_of_lookup (hka : ∀ p ∈ am, PlainKey p.1) (hkb : ∀ p ∈ bm, PlainKey p.1)
    {k : String} (h : am.lookup k ≠ none ∨ bm.lookup k ≠ none) : PlainKey k := by
  rcases h with h | h
  · obtain ⟨v, hv⟩ := Option.ne_none_iff_exists'.mp h
    exact hka _ (mem_of_lookup hv)
  · obtain ⟨v, hv⟩ := Option.ne_none_iff_exists'.mp h
    exact hkb _ (mem_of_lookup hv)

theorem sorted_mergedKeys (ha : Sorted am) (hb : Sorted bm) :
    (mergedKeys am bm).Pairwise (· < ·) := by
  induction am generalizing bm with
  | nil => exact sorted_iff_keys.mp hb
  | cons p am ih =>
    obtain ⟨hp, ham⟩ := sorted_cons.mp ha
    have hhigh : ∀ k ∈ mergedKeys am (bm.filter fun q => p.1 < q.1), p.1 < k := by
      intro k hk
      obtain ⟨q, hq, rfl⟩ | ⟨q, hq, rfl⟩ := of_mem_mergedKeys hk
      · exact hp q hq
      · exact of_decide_eq_true (mem_filter.mp hq).2
    have hlow : ∀ k ∈ (bm.filter fun q => q.1 < p.1).map Prod.fst, k < p.1 := by
      intro k hk
      obtain ⟨q, hq, rfl⟩ := mem_map.mp hk
      exact of_decide_eq_true (mem_filter.mp hq).2
    refine pairwise_append.mpr ⟨sorted_iff_keys.mp (hb.filter _),
      pairwise_cons.mpr ⟨hhigh, ih ham (hb.filter _)⟩, fun k hk l hl => ?_⟩
    rcases mem_cons.mp hl with rfl | hl
    · exact hlow k hk
    · exact (hlow k hk).trans (hhigh l hl)

private theorem edits_flatMap_keys {f : String → List Change} {target : String → Option Json}
    {keys : List String} (hkeys : keys.Nodup) {m : Fields} (hm : Sorted m)
    (h : ∀ k ∈ keys, ∀ m', Sorted m' → m'.lookup k = m.lookup k →
      Edits pre (f k) (.obj m') (.obj (setEntry k (target k) m'))) :
    ∃ m', Sorted m' ∧ Edits pre (keys.flatMap f) (.obj m) (.obj m') ∧
      ∀ k, m'.lookup k = if k ∈ keys then target k else m.lookup k := by
  induction keys generalizing m with
  | nil => exact ⟨m, hm, rfl, fun k => by simp⟩
  | cons k keys ih =>
    obtain ⟨hk, hkeys⟩ := nodup_cons.mp hkeys
    have hfirst := h k mem_cons_self m hm rfl
    have hset : Sorted (setEntry k (target k) m) := sorted_setEntry hm
    obtain ⟨m', hm', hedits, hlook⟩ := ih hkeys hset
      (fun l hl m' hm' hl' => h l (mem_cons_of_mem k hl) m' hm' (by
        rw [hl', lookup_setEntry, if_neg (ne_of_mem_of_not_mem hl hk)]))
    refine ⟨m', hm', hfirst.append hedits, fun l => ?_⟩
    rw [hlook, lookup_setEntry]
    by_cases hl : l = k
    · subst hl
      rw [if_neg hk, if_pos rfl, if_pos mem_cons_self]
    · simp only [mem_cons, hl, false_or, if_false]

/-- **Objects.** If the entries that both sides have are edited to their rearranged form, so is
the object. -/
theorem edits_diffMap (hpre : parsePath path = .ok pre) {rm : Fields}
    (hrm : alikeFields opts path rm am = true) (ha : Sorted am) (hb : Sorted bm)
    (hka : ∀ p ∈ am, PlainKey p.1) (hkb : ∀ p ∈ bm, PlainKey p.1)
    (ih : ∀ k rv av bv, rm.lookup k = some rv → am.lookup k = some av → bm.lookup k = some bv →
      Edits (pre ++ [.key k]) (diffValue opts (childPath path k) av bv) rv
        (rearrange opts (childPath path k) rv bv)) :
    Edits pre (diffMap opts path am bm) (.obj rm) (.obj (rearrangeFields opts path rm bm)) := by
  have hrs : Sorted rm := by rwa [sorted_iff_keys, map_fst_of_alikeFields hrm, ← sorted_iff_keys]
  have htarget : Sorted (rearrangeFields opts path rm bm) := by
    rwa [sorted_iff_keys, map_fst_rearrangeFields, ← sorted_iff_keys]
  have hentry : ∀ k ∈ mergedKeys am bm, ∀ m, Sorted m → m.lookup k = rm.lookup k →
      Edits pre (entryDiff opts path k (am.lookup k) (bm.lookup k)) (.obj m)
        (.obj (setEntry k ((rearrangeFields opts path rm bm).lookup k) m)) := by
    intro k hk m hm hmk
    have hplain : PlainKey k := by
      obtain ⟨p, hp, rfl⟩ | ⟨p, hp, rfl⟩ := of_mem_mergedKeys hk
      · exact hka p hp
      · exact hkb p hp
    have hpath := parsePath_childPath_key hpre hplain
    rw [lookup_rearrangeFields]
    obtain ⟨hrv, hav⟩ | ⟨rv, av, hrv, hav, -⟩ := lookup_of_alikeFields hrm k
    · rw [hrv] at hmk
      rw [hav]
      cases hbv : bm.lookup k with
      | none =>
        have hsame : setEntry k none m = m := hmk ▸ setEntry_lookup hm
        rw [Option.map_none, hsame]
        rfl
      | some bv =>
        refine .single hpath ?_
        simp [applyAt, applyStep_obj, applyEntry, Change.addAt, rearrangeEntry, hrv, Except.map]
    · rw [hrv] at hmk
      rw [hav]
      cases hbv : bm.lookup k with
      | none =>
        refine .single hpath ?_
        simp [applyAt, applyStep_obj, applyEntry, Change.removeAt, hmk, Except.map]
      | some bv =>
        simp only [Option.map_some, rearrangeEntry, hrv]
        exact .key hm hmk (ih k rv av bv hrv hav hbv)
  have hnodup : (mergedKeys am bm).Nodup := (sorted_mergedKeys ha hb).imp fun h => h.ne
  obtain ⟨m', hm', hedits, hlook⟩ := edits_flatMap_keys hnodup hrs hentry
  have hm'eq : m' = rearrangeFields opts path rm bm := by
    refine ext_lookup hm' htarget fun k => ?_
    rw [hlook]
    split_ifs with hk
    · rfl
    · -- a key of neither side has no entry before and after
      obtain ⟨hav, hbv⟩ := lookup_of_notMem_mergedKeys hk
      obtain ⟨hrv, -⟩ | ⟨rv, av, -, hav', -⟩ := lookup_of_alikeFields hrm k
      · rw [hrv, lookup_rearrangeFields, hbv, Option.map_none]
      · cases hav.symm.trans hav'
  rw [diffMap_eq_flatMap ha hb, ← hm'eq]
  exact hedits

/-! ### Arrays compared by position -/

theorem diffElems_eq_flatMap (aa ba : List Json) (i : Nat) : diffElems opts path i aa ba =
    (List.range (min aa.length ba.length)).flatMap fun j =>
      diffValue opts (indexPath path (i + j)) (aa.getD j .null) (ba.getD j .null) := by
  induction aa generalizing i ba with
  | nil => simp [diffElems]
  | cons av aa ih =>
    cases ba with
    | nil => simp [diffElems]
    | cons bv ba =>
      rw [diffElems, ih, length_cons, length_cons, Nat.succ_min_succ,
        range_succ_eq_map, flatMap_cons, flatMap_map]
      simp [Nat.add_assoc, Nat.add_comm 1]

theorem mem_zipIdx_drop_iff {n i : Nat} {x : Json} :
    (x, i) ∈ (l.drop n).zipIdx n ↔ n ≤ i ∧ l[i]? = some x := by
  rw [mk_mem_zipIdx_iff_le_and_getElem?_sub]
  refine and_congr_right fun hle => ?_
  rw [getElem?_drop, Nat.add_sub_cancel' hle]

theorem mem_addedTail_iff {n : Nat} {ch : Change} : ch ∈ addedTail path n ba ↔
    ∃ i x, n ≤ i ∧ ba[i]? = some x ∧ ch = .addAt (indexPath path i) x := by
  rw [addedTail, mem_map]
  constructor
  · rintro ⟨⟨x, i⟩, hp, rfl⟩
    obtain ⟨hle, hx⟩ := mem_zipIdx_drop_iff.mp hp
    exact ⟨i, x, hle, hx, rfl⟩
  · rintro ⟨i, x, hle, hx, rfl⟩
    exact ⟨(x, i), mem_zipIdx_drop_iff.mpr ⟨hle, hx⟩, rfl⟩

theorem mem_removedTail_iff {n : Nat} {ch : Change} : ch ∈ removedTail path n aa ↔
    ∃ i x, n ≤ i ∧ aa[i]? = some x ∧ ch = .removeAt (indexPath path i) x := by
  rw [removedTail, mem_map]
  constructor
  · rintro ⟨⟨x, i⟩, hp, rfl⟩
    obtain ⟨hle, hx⟩ := mem_zipIdx_drop_iff.mp (mem_reverse.mp hp)
    exact ⟨i, x, hle, hx, rfl⟩
  · rintro ⟨i, x, hle, hx, rfl⟩
    exact ⟨(x, i), mem_reverse.mpr (mem_zipIdx_drop_iff.mpr ⟨hle, hx⟩), rfl⟩

private theorem length_rearrangeElems_take {i : Nat} :
    (rearrangeElems opts path i ra (ba.take ra.length)).length = min ra.length ba.length := by
  induction ra generalizing i ba with
  | nil => simp [rearrangeElems]
  | cons rv ra ih =>
    cases ba with
    | nil => simp [rearrangeElems]
    | cons bv ba => simp [rearrangeElems, ih]

private theorem rearrangeElems_eq_append {i : Nat} : rearrangeElems opts path i ra ba =
    rearrangeElems opts path i ra (ba.take ra.length) ++ ba.drop ra.length := by
  induction ra generalizing i ba with
  | nil => simp [rearrangeElems]
  | cons rv ra ih =>
    cases ba with
    | nil => simp [rearrangeElems]
    | cons bv ba =>
      simp only [rearrangeElems, length_cons, take_succ_cons, drop_succ_cons,
        cons_append]
      rw [ih]

private theorem edits_diffElems (hra : ra.length = aa.length)
    (ih : ∀ n rv av bv, ra[n]? = some rv → aa[n]? = some av → ba[n]? = some bv →
      Edits (pre ++ [.index (l.length + n : Nat)])
        (diffValue opts (indexPath path (l.length + n)) av bv) rv
        (rearrange opts (indexPath path (l.length + n)) rv bv)) :
    Edits pre (diffElems opts path l.length aa ba) (.arr (l ++ ra))
      (.arr (l ++ (rearrangeElems opts path l.length ra (ba.take ra.length) ++
        ra.drop ba.length))) := by
  induction aa generalizing ra ba l with
  | nil =>
    obtain rfl := length_eq_zero_iff.mp hra
    simp [diffElems, rearrangeElems, Edits]
  | cons av aa iha =>
    cases ra with
    | nil => cases hra
    | cons rv ra =>
      cases ba with
      | nil => simp [diffElems, rearrangeElems, Edits]
      | cons bv ba =>
        have hhead := ih 0 rv av bv rfl rfl rfl
        simp only [Nat.add_zero] at hhead
        have hrest := @iha ra ba (l ++ [rearrange opts (indexPath path l.length) rv bv])
          (by simpa using hra) (fun n x y z hx hy hz => by
            have := ih (n + 1) x y z hx hy hz
            simpa [Nat.add_assoc, Nat.add_comm 1] using this)
        simp only [length_append, length_singleton, append_assoc,
          singleton_append] at hrest
        simpa [diffElems, rearrangeElems] using (Edits.index (m := ra) hhead).append hrest

private theorem edits_arrayTail (hpre : parsePath path = .ok pre) {c : List Json}
    (hra : ra.length = aa.length) (hc : c.length = min aa.length ba.length)
    (ha : aa.length < 2 ^ 63) (hb : ba.length < 2 ^ 63) :
    Edits pre (arrayTail path aa ba) (.arr (c ++ ra.drop ba.length))
      (.arr (c ++ ba.drop aa.length)) := by
  rw [arrayTail, addedTail, removedTail]
  rcases Nat.le_total aa.length ba.length with hle | hle
  · rw [Nat.min_eq_left hle] at hc
    have hadd := edits_addTail hpre c (ba.drop aa.length)
      (by simp only [length_drop]; omega)
    rw [hc] at hadd
    simpa [Nat.min_eq_left hle, drop_eq_nil_of_le (hra ▸ hle)] using hadd
  · rw [Nat.min_eq_right hle] at hc
    have hlen : (aa.drop ba.length).length = (ra.drop ba.length).length := by simp [hra]
    have hrm := edits_removeTail hpre c hlen (by rw [length_drop]; omega)
    rw [hc] at hrm
    simpa [Nat.min_eq_right hle, drop_eq_nil_of_le hle] using hrm

/-- **Arrays compared by position.** -/
theorem edits_indexArray (hpre : parsePath path = .ok pre) (hra : ra.length = aa.length)
    (ha : aa.length < 2 ^ 63) (hb : ba.length < 2 ^ 63)
    (ih : ∀ n rv av bv, ra[n]? = some rv → aa[n]? = some av → ba[n]? = some bv →
      Edits (pre ++ [.index (n : Nat)]) (diffValue opts (indexPath path n) av bv) rv
        (rearrange opts (indexPath path n) rv bv)) :
    Edits pre (diffElems opts path 0 aa ba ++ arrayTail path aa ba) (.arr ra)
      (.arr (rearrangeElems opts path 0 ra ba)) := by
  have helems := edits_diffElems (l := []) hra (by simpa using ih)
  have htail := edits_arrayTail hpre hra (c := rearrangeElems opts path 0 ra (ba.take ra.length))
    (by rw [length_rearrangeElems_take, hra]) ha hb
  rw [← hra, ← rearrangeElems_eq_append] at htail
  exact helems.append htail

/-! ### Arrays compared by key -/

private theorem lookup_map_self {f : Json → String} {p : Json → Bool} {k : String}
    (h : ∀ x ∈ l, f x = k ↔ p x = true) : (l.map fun x => (f x, x)).lookup k = l.find? p := by
  induction l with
  | nil => rfl
  | cons x l ih =>
    obtain ⟨hx, hl⟩ := forall_mem_cons.mp h
    rw [map_cons, lookup_cons_eq, ih hl, find?_cons]
    by_cases hp : p x = true
    · rw [if_pos (hx.mpr hp).symm, hp]
    · rw [if_neg fun hk => hp (hx.mp hk.symm), Bool.eq_false_iff.mpr hp]

private theorem lookup_byKey {ks : String} (hb : keyable ba kf = true) {av : Json}
    (hav : elemKey kf av = some ks) :
    (ba.reverse.map fun el => ((elemKey kf el).getD "", el)).lookup ks = sameKey kf av ba := by
  obtain ⟨hsome, hnodup⟩ := keyable_iff.mp hb
  have hkeys : ∀ x ∈ ba.reverse, (elemKey kf x).getD "" = ks ↔
      decide (elemKey kf x = elemKey kf av) = true := by
    intro x hx
    obtain ⟨ks', hks'⟩ := hsome x (mem_reverse.mp hx)
    simp [hks', hav]
  rw [lookup_map_self hkeys, ← sameKey]
  cases hbv : sameKey kf av ba with
  | none =>
    rw [sameKey_eq_none] at hbv ⊢
    simpa using hbv
  | some bv =>
    obtain ⟨hmem, hkey⟩ := mem_of_sameKey hbv
    exact sameKey_eq_some (by simpa using hnodup) (mem_reverse.mpr hmem) hkey

/-- The changes to an element of the left array, given its counterpart on the right. -/
def elemDiff (opts : DiffOptions) (path kf ks : String) (av : Json) : Option Json → List Change
  | some bv => diffValue opts (keyedPath path kf ks) av bv
  | none => [.removeAt (keyedPath path kf ks) av]

theorem diffKeyed_cons {ks : String} {av : Json} (hba : keyable ba kf = true)
    (hks : elemKey kf av = some ks) :
    diffKeyed opts path kf (av :: aa) ba =
      elemDiff opts path kf ks av (sameKey kf av ba) ++ diffKeyed opts path kf aa ba := by
  rw [diffKeyed, hks, Option.getD_some, lookup_byKey hba hks]
  cases sameKey kf av ba <;> rfl

/-- The array while its elements are matched by key: those whose key is dealt with are in their
final form or gone. -/
def keyedState (opts : DiffOptions) (path kf : String) (ra ba : List Json)
    (dealt : List (Option String)) : List Json :=
  ra.filterMap fun rv =>
    if dealt.contains (elemKey kf rv) then
      (sameKey kf rv ba).map (rearrange opts (elemPath path kf rv) rv)
    else some rv

private theorem exists_of_mem_keyedState {dealt : List (Option String)} {x : Json}
    (hx : x ∈ keyedState opts path kf ra ba dealt) : ∃ rv ∈ ra, elemKey kf x = elemKey kf rv := by
  obtain ⟨rv, hrv, hstate⟩ := mem_filterMap.mp hx
  refine ⟨rv, hrv, ?_⟩
  split_ifs at hstate
  · obtain ⟨bv, hbv, rfl⟩ := Option.map_eq_some_iff.mp hstate
    rw [elemKey_rearrange, (mem_of_sameKey hbv).2]
  · rw [← Option.some.inj hstate]

private theorem keyedState_cons {ks : Option String} {dealt : List (Option String)}
    (hl : ∀ x ∈ l, elemKey kf x ≠ ks) :
    keyedState opts path kf l ba (ks :: dealt) = keyedState opts path kf l ba dealt := by
  refine filterMap_congr fun x hx => ?_
  simp only [contains_iff_mem, mem_cons, hl x hx, false_or]

private theorem notMem_keys_of_split {m : List Json} {x : Json}
    (h : ((l ++ x :: m).map (elemKey kf)).Nodup) :
    (∀ y ∈ l, elemKey kf y ≠ elemKey kf x) ∧ ∀ y ∈ m, elemKey kf y ≠ elemKey kf x := by
  rw [map_append, map_cons] at h
  obtain ⟨-, hm, hlm⟩ := nodup_append.mp h
  refine ⟨fun y hy => ?_, fun y hy => ?_⟩
  · exact hlm _ (mem_map_of_mem hy) _ mem_cons_self
  · exact ne_of_mem_of_not_mem (mem_map_of_mem hy) (nodup_cons.mp hm).1

/-- The loop over the elements of the left array, with some keys dealt with already. -/
theorem edits_diffKeyed (hopen : Opens path pre) (dealt : List (Option String))
    (hra : (ra.map (elemKey kf)).Nodup) (hba : keyable ba kf = true) (haa : keyable aa kf = true)
    (hdealt : ∀ av ∈ aa, elemKey kf av ∉ dealt)
    (hmatch : ∀ av ∈ aa, ∃ rv ∈ ra, elemKey kf rv = elemKey kf av)
    (hmild : ∀ av ∈ aa, PathSeg.Mild (.keyed kf ((elemKey kf av).getD "")))
    (ih : ∀ rv ∈ ra, ∀ av ∈ aa, ∀ bv ∈ ba, elemKey kf rv = elemKey kf av →
      elemKey kf bv = elemKey kf av → ∀ ks, elemKey kf av = some ks →
      Edits (pre ++ [.keyed kf ks]) (diffValue opts (keyedPath path kf ks) av bv) rv
        (rearrange opts (keyedPath path kf ks) rv bv) ∧
      ∀ ch ∈ diffValue opts (keyedPath path kf ks) av bv, ∀ rel,
        parsePath ch.path = .ok (pre ++ [.keyed kf ks] ++ rel) → KeepsKey kf ks ch rel) :
    Edits pre (diffKeyed opts path kf aa ba) (.arr (keyedState opts path kf ra ba dealt))
      (.arr (keyedState opts path kf ra ba ((aa.map (elemKey kf)).reverse ++ dealt))) := by
  induction aa generalizing dealt with
  | nil => simp [diffKeyed, Edits]
  | cons av aa iha =>
    obtain ⟨hsome, hnodup⟩ := keyable_iff.mp haa
    obtain ⟨⟨ks, hks⟩, hsome⟩ := forall_mem_cons.mp hsome
    obtain ⟨hav, hnodup⟩ := nodup_cons.mp hnodup
    obtain ⟨rv, hrv, hkey⟩ := hmatch av mem_cons_self
    -- the array as it is split at the element, before and after
    obtain ⟨l, m, hsplit⟩ := append_of_mem hrv
    obtain ⟨hl, hm⟩ := notMem_keys_of_split (hsplit ▸ hra)
    have hbefore : keyedState opts path kf ra ba dealt = keyedState opts path kf l ba dealt ++
        rv :: keyedState opts path kf m ba dealt := by
      have hnot : elemKey kf rv ∉ dealt := hkey ▸ hdealt av mem_cons_self
      rw [← contains_iff_mem] at hnot
      rw [hsplit, keyedState, filterMap_append, filterMap_cons, if_neg hnot]
      rfl
    have hafter : keyedState opts path kf ra ba (elemKey kf rv :: dealt) =
        keyedState opts path kf l ba dealt ++
          ((sameKey kf rv ba).map (rearrange opts (elemPath path kf rv) rv)).toList ++
          keyedState opts path kf m ba dealt := by
      rw [hsplit, ← keyedState_cons hl, ← keyedState_cons hm, keyedState, filterMap_append,
        filterMap_cons, if_pos (contains_iff_mem.mpr mem_cons_self)]
      cases sameKey kf rv ba <;> simp [keyedState]
    have hks' : elemKey kf rv = some ks := hkey.trans hks
    have hL : ∀ x ∈ keyedState opts path kf l ba dealt, elemKey kf x ≠ some ks := by
      intro x hx
      obtain ⟨y, hy, hxy⟩ := exists_of_mem_keyedState hx
      rw [hxy, ← hks']
      exact hl y hy
    have hfind : sameKey kf rv ba = sameKey kf av ba := by simp only [sameKey, hkey]
    have hpath : elemPath path kf rv = keyedPath path kf ks := by
      simp only [elemPath, hks', Option.getD_some]
    have hfirst : Edits pre (elemDiff opts path kf ks av (sameKey kf av ba))
        (.arr (keyedState opts path kf ra ba dealt))
        (.arr (keyedState opts path kf ra ba (elemKey kf rv :: dealt))) := by
      rw [hbefore, hafter, hfind, hpath]
      cases hbv : sameKey kf av ba with
      | none =>
        have hplace := hopen kf ks (by simpa [hks] using hmild av mem_cons_self)
        refine .single hplace ?_
        simp only [applyAt, applyStep, Change.removeAt, isEmpty_nil, if_true,
          indexOfKey_split hL hks']
        simp [eraseIdx_append_of_length_le]
      | some bv =>
        obtain ⟨hbmem, hbkey⟩ := mem_of_sameKey hbv
        obtain ⟨hedits, hkeep⟩ := ih rv hrv av mem_cons_self bv hbmem hkey hbkey ks hks
        simpa [elemDiff] using
          Edits.keyed (m := keyedState opts path kf m ba dealt) hL hks' hkeep hedits
    have hrest := iha (elemKey kf rv :: dealt) (keyable_iff.mpr ⟨hsome, hnodup⟩) ?_
      (fun x hx => hmatch x (mem_cons_of_mem av hx))
      (fun x hx => hmild x (mem_cons_of_mem av hx))
      (fun rv hrv x hx => ih rv hrv x (mem_cons_of_mem av hx))
    · rw [diffKeyed_cons hba hks]
      have hkeys : ((av :: aa).map (elemKey kf)).reverse ++ dealt =
          (aa.map (elemKey kf)).reverse ++ elemKey kf rv :: dealt := by simp [hkey]
      rw [hkeys]
      exact hfirst.append hrest
    · intro x hx hmem
      rcases mem_cons.mp hmem with heq | hmem
      · exact hav (hkey ▸ heq ▸ mem_map_of_mem hx)
      · exact hdealt x (mem_cons_of_mem av hx) hmem

/-- **Arrays compared by key.** The known elements keep their order and are edited or removed,
the new ones follow. -/
theorem edits_keyedArray (hopen : Opens path pre)
    (hperm : (ra.map (elemKey kf)).Perm (aa.map (elemKey kf))) (hba : keyable ba kf = true)
    (haa : keyable aa kf = true)
    (hmild : ∀ el ∈ aa ++ ba, PathSeg.Mild (.keyed kf ((elemKey kf el).getD "")))
    (ih : ∀ rv ∈ ra, ∀ av ∈ aa, ∀ bv ∈ ba, elemKey kf rv = elemKey kf av →
      elemKey kf bv = elemKey kf av → ∀ ks, elemKey kf av = some ks →
      Edits (pre ++ [.keyed kf ks]) (diffValue opts (keyedPath path kf ks) av bv) rv
        (rearrange opts (keyedPath path kf ks) rv bv) ∧
      ∀ ch ∈ diffValue opts (keyedPath path kf ks) av bv, ∀ rel,
        parsePath ch.path = .ok (pre ++ [.keyed kf ks] ++ rel) → KeepsKey kf ks ch rel) :
    Edits pre (diffKeyed opts path kf aa ba ++ addedKeyed path kf aa ba) (.arr ra)
      (.arr (keyOrder kf ra (rearrangeKeyed opts path kf ra ba))) := by
  obtain ⟨hasome, hanodup⟩ := keyable_iff.mp haa
  have hrnodup := hperm.nodup_iff.mpr hanodup
  obtain ⟨hmilda, hmildb⟩ := forall_mem_append.mp hmild
  have hmatch : ∀ av ∈ aa, ∃ rv ∈ ra, elemKey kf rv = elemKey kf av := fun av hav =>
    mem_map.mp (hperm.symm.subset (mem_map_of_mem hav))
  have hloop := edits_diffKeyed hopen [] hrnodup hba haa (by simp) hmatch hmilda ih
  have hstart : keyedState opts path kf ra ba [] = ra := by simp [keyedState]
  have hend : keyedState opts path kf ra ba ((aa.map (elemKey kf)).reverse ++ []) =
      ra.filterMap fun rv => sameKey kf rv (rearrangeKeyed opts path kf ra ba) := by
    refine filterMap_congr fun rv hrv => ?_
    have hdealt : elemKey kf rv ∈ (aa.map (elemKey kf)).reverse ++ [] := by
      simpa using hperm.subset (mem_map_of_mem hrv)
    rw [if_pos (contains_iff_mem.mpr hdealt), sameKey_rearrangeKeyed hrnodup hrv]
  rw [hstart, hend] at hloop
  -- a key is new on the right exactly if it does not occur in the edited array
  have hnew : ba.filter (fun el => (elemKey kf el).getD "" ∉
      aa.map fun el => (elemKey kf el).getD "") =
      ba.filter fun el => elemKey kf el ∉ ra.map (elemKey kf) := by
    refine filter_congr fun el hel => ?_
    obtain ⟨ks, hks⟩ := (keyable_iff.mp hba).1 el hel
    refine decide_eq_decide.mpr (not_congr ?_)
    rw [hperm.mem_iff, hks, Option.getD_some, mem_map, mem_map]
    refine exists_congr fun av => and_congr_right fun hav => ?_
    obtain ⟨ks', hks'⟩ := hasome av hav
    simp [hks']
  have hadd := edits_addKeyed hopen
    (ra.filterMap fun rv => sameKey kf rv (rearrangeKeyed opts path kf ra ba))
    fun x (hx : x ∈ ba.filter fun el => elemKey kf el ∉ ra.map (elemKey kf)) =>
      hmildb x (mem_filter.mp hx).1
  rw [keyOrder, filter_rearrangeKeyed, addedKeyed]
  simp only [hnew]
  exact hloop.append hadd

end

end Letopis
