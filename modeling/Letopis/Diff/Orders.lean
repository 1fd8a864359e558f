import Letopis.Diff.RoundTrip
import Letopis.ForMathlib.SeparateParts

/-!
# Applying a diff in another order

The changes of an index-mode diff are applied in any order. Changes at different keys of an
object, and at different common elements of an array, are edits of separate parts, so their
order does not matter (`SeparateParts.run_cases`). What is order-sensitive is the tail of an
array: additions there succeed only in ascending order and removals only in descending order,
because any other order runs into an index that is not there. So a permuted list either gives
the target or stops with `ErrPathNotFound` (`apply_perm_diff`).
-/

namespace Letopis

open SortedAssoc SeparateParts List

/-- The place a change names; nothing for a path that cannot be read. -/
def segsOf (ch : Change) : List PathSeg :=
  match parsePath ch.path with
  | .ok segs => segs
  | .error _ => []

/-- Apply a change to the value that lies `d` steps down its path. -/
def applyBelow (d : Nat) (v : Json) (ch : Change) : Except DiffErr Json :=
  applyAt ch v ((segsOf ch).drop d)

/-- The result is the value, or the error of a path that is not there. -/
def Reaches {α : Type} (r : Except DiffErr α) (b : α) : Prop :=
  r = .ok b ∨ ∃ e, r = .error e ∧ e.sentinel = .pathNotFound

variable {chs : List Change}

private theorem reaches_of_parts {σ γ ι : Type} [DecidableEq ι]
    {step : σ → Change → Except DiffErr σ}
    (partStep : γ → Change → Except DiffErr γ) (part : Change → ι) (get : σ → ι → γ)
    (inv : σ → Prop) {a b : σ} (h : ∀ ch ∈ chs, Separate step partStep part get inv ch) (ha : inv a)
    (hparts : ∀ i, Reaches ((chs.filter fun ch => part ch = i).foldlM partStep (get a i)) (get b i))
    (hext : ∀ s, inv s → (∀ i, get s i = get b i) → s = b) : Reaches (chs.foldlM step a) b := by
  obtain ⟨e, i, hrun, hpart⟩ | ⟨s, hrun, hs, hpart⟩ := run_cases h ha
  · obtain hok | ⟨e', he', hsent⟩ := hparts i
    · cases hpart.symm.trans hok
    · cases Except.error.inj (hpart.symm.trans he')
      exact .inr ⟨e, hrun, hsent⟩
  · refine .inl (hrun.trans (congrArg _ (hext s hs fun i => ?_)))
    obtain hok | ⟨e', he', -⟩ := hparts i
    · exact Except.ok.inj ((hpart i).symm.trans hok)
    · cases (hpart i).symm.trans he'

theorem Reaches.map {α β : Type} {r : Except DiffErr α} {b : α} (h : Reaches r b) (f : α → β) :
    Reaches (r.map f) (f b) := by
  obtain rfl | ⟨e, rfl, he⟩ := h
  · exact .inl rfl
  · exact .inr ⟨e, rfl, he⟩

section

variable {pre : List PathSeg} {s : PathSeg} {rest : List PathSeg}

private theorem drop_segsOf (ch : Change) (h : parsePath ch.path = .ok (pre ++ rest)) :
    (segsOf ch).drop pre.length = rest := by
  simp [segsOf, h]

private theorem drop_succ_segsOf (ch : Change) (h : parsePath ch.path = .ok (pre ++ s :: rest)) :
    (segsOf ch).drop (pre.length + 1) = rest := by
  have hlen : pre.length + 1 = (pre ++ [s]).length := by simp
  rw [hlen]
  exact drop_segsOf ch (by simpa using h)

end

private theorem apply_eq_foldlM (h : ∀ ch ∈ chs, ∃ segs, parsePath ch.path = .ok segs) (a : Json) :
    apply a chs = chs.foldlM (applyBelow 0) a := by
  induction chs generalizing a with
  | nil => rfl
  | cons ch chs ih =>
    obtain ⟨⟨segs, hsegs⟩, hchs⟩ := forall_mem_cons.mp h
    have hstep : applyOneChange a ch = applyBelow 0 a ch := by
      simp [applyOneChange, applyBelow, segsOf, hsegs]
    rw [apply, hstep, foldlM_cons]
    cases applyBelow 0 a ch with
    | error e => rfl
    | ok v => exact ih hchs v

/-! ### Objects -/

section Objects

variable {path : String} {pre : List PathSeg} {opts : DiffOptions}

/-- The key that a change names at depth `d`. -/
def keyAt (d : Nat) (ch : Change) : String :=
  match (segsOf ch).drop d with
  | .key k :: _ => k
  | _ => ""

/-- The entry of an object under a key. -/
def entryOf (v : Json) (k : String) : Option Json :=
  match v with
  | .obj m => m.lookup k
  | _ => none

/-- What a change does to the entry that it leads to. -/
def entryStep (d : Nat) (entry : Option Json) (ch : Change) : Except DiffErr (Option Json) :=
  applyEntry ch entry ((segsOf ch).drop (d + 1))

private theorem separate_key {ch : Change} {k : String} {rest : List PathSeg}
    (h : parsePath ch.path = .ok (pre ++ .key k :: rest)) :
    Separate (applyBelow pre.length) (entryStep pre.length) (keyAt pre.length) entryOf
      (fun v => ∃ m, v = .obj m ∧ Sorted m) ch := by
  rintro _ ⟨m, rfl, hm⟩
  have hkey : keyAt pre.length ch = k := by rw [keyAt, drop_segsOf _ h]
  have hstep : applyBelow pre.length (.obj m) ch =
      (applyEntry ch (m.lookup k) rest).map fun entry => .obj (setEntry k entry m) := by
    rw [applyBelow, drop_segsOf _ h]
    exact applyStep_obj ch m k rest
  have hentry : entryStep pre.length (entryOf (.obj m) (keyAt pre.length ch)) ch =
      applyEntry ch (m.lookup k) rest := by
    rw [entryStep, drop_succ_segsOf _ h, hkey, entryOf]
  rw [hstep, hentry]
  constructor
  · intro e he
    rw [he]
    rfl
  · intro entry he
    refine ⟨.obj (setEntry k entry m), by rw [he]; rfl, ⟨_, rfl, sorted_setEntry hm⟩, ?_, ?_⟩
    · rw [hkey, entryOf, lookup_setEntry, if_pos rfl]
    · intro i hi
      rw [entryOf, lookup_setEntry, if_neg (hkey ▸ hi), entryOf]

private theorem foldlM_entryStep {d : Nat} {chs : List Change}
    (h : ∀ ch ∈ chs, (segsOf ch).drop (d + 1) = [] → ch.op = .change) (v : Json) :
    chs.foldlM (entryStep d) (some v) = (chs.foldlM (applyBelow (d + 1)) v).map some := by
  induction chs generalizing v with
  | nil => rfl
  | cons ch chs ih =>
    obtain ⟨hch, hchs⟩ := forall_mem_cons.mp h
    have hstep : entryStep d (some v) ch = (applyBelow (d + 1) v ch).map some := by
      rw [entryStep, applyBelow]
      cases hrest : (segsOf ch).drop (d + 1) with
      | nil => simp [applyEntry, applyAt, hch hrest, Except.map]
      | cons s rest => rfl
    rw [foldlM_cons, foldlM_cons, hstep]
    cases applyBelow (d + 1) v ch with
    | error e => rfl
    | ok u => exact ih hchs u

private theorem located_entryDiff (hpre : parsePath path = .ok pre) {am bm : Fields} {k : String}
    (hka : ∀ p ∈ am, PlainKey p.1) (hkb : ∀ p ∈ bm, PlainKey p.1)
    (hedits : ∀ av bv, am.lookup k = some av → bm.lookup k = some bv →
      Edits (pre ++ [.key k]) (diffValue opts (childPath path k) av bv) av bv)
    {ch : Change} (hch : ch ∈ entryDiff opts path k (am.lookup k) (bm.lookup k)) :
    ∃ rest, parsePath ch.path = .ok (pre ++ .key k :: rest) := by
  obtain ⟨hpath, hsome, -⟩ | ⟨av, bv, hav, hbv, hch⟩ := mem_entryDiff hch
  · exact ⟨[], hpath ▸ parsePath_childPath_key hpre (plainKey_of_lookup hka hkb hsome)⟩
  · obtain ⟨rest, hrest, -⟩ := (hedits av bv hav hbv).located hch
    exact ⟨rest, by simpa using hrest⟩

/-- **Objects.** -/
theorem reaches_diffMap (hpre : parsePath path = .ok pre) {am bm : Fields}
    (ha : Sorted am) (hb : Sorted bm) (hka : ∀ p ∈ am, PlainKey p.1) (hkb : ∀ p ∈ bm, PlainKey p.1)
    (hedits : ∀ k av bv, am.lookup k = some av → bm.lookup k = some bv →
      Edits (pre ++ [.key k]) (diffValue opts (childPath path k) av bv) av bv)
    (ih : ∀ k av bv, am.lookup k = some av → bm.lookup k = some bv → ∀ chs : List Change,
      chs.Perm (diffValue opts (childPath path k) av bv) →
      Reaches (chs.foldlM (applyBelow (pre.length + 1)) av) bv)
    {chs : List Change} (hperm : chs.Perm (diffMap opts path am bm)) :
    Reaches (chs.foldlM (applyBelow pre.length) (.obj am)) (.obj bm) := by
  have hloc : ∀ k, ∀ ch ∈ entryDiff opts path k (am.lookup k) (bm.lookup k),
      ∃ rest, parsePath ch.path = .ok (pre ++ .key k :: rest) := fun k ch hch =>
    located_entryDiff hpre hka hkb (hedits k) hch
  refine reaches_of_parts (entryStep pre.length) (keyAt pre.length) entryOf
    (fun v => ∃ m, v = .obj m ∧ Sorted m) ?_ ⟨am, rfl, ha⟩ ?_ ?_
  · intro ch hch
    obtain ⟨k, hk⟩ := (mem_diffMap_iff ha hb).mp (hperm.subset hch)
    obtain ⟨rest, hrest⟩ := hloc k ch hk
    exact separate_key hrest
  · intro k
    -- the changes at this key, in some order
    have hfilter : (chs.filter fun ch => keyAt pre.length ch = k).Perm
        (entryDiff opts path k (am.lookup k) (bm.lookup k)) := by
      have hpart := hperm.filter fun ch => keyAt pre.length ch = k
      rw [diffMap_eq_flatMap ha hb, filter_flatMap
        ((sorted_mergedKeys ha hb).imp fun h => h.ne) (fun k' _ ch hch => ?_)] at hpart
      · split_ifs at hpart with hk
        · exact hpart
        · obtain ⟨hav, hbv⟩ := lookup_of_notMem_mergedKeys hk
          simpa only [hav, hbv, entryDiff] using hpart
      · obtain ⟨rest, hrest⟩ := hloc k' ch hch
        rw [keyAt, drop_segsOf _ hrest]
    generalize (chs.filter fun ch => keyAt pre.length ch = k) = chs' at hfilter ⊢
    simp only [entryOf]
    cases hav : am.lookup k with
    | none =>
      cases hbv : bm.lookup k with
      | none =>
        simp only [hav, hbv, entryDiff, perm_nil] at hfilter
        rw [hfilter]
        exact .inl rfl
      | some bv =>
        simp only [hav, hbv, entryDiff, perm_singleton] at hfilter
        have hplace := parsePath_childPath_key hpre (hkb _ (mem_of_lookup hbv))
        have hdrop := drop_succ_segsOf (.addAt (childPath path k) bv) hplace
        rw [hfilter, foldlM_cons, entryStep, hdrop]
        exact .inl rfl
    | some av =>
      cases hbv : bm.lookup k with
      | none =>
        simp only [hav, hbv, entryDiff, perm_singleton] at hfilter
        have hplace := parsePath_childPath_key hpre (hka _ (mem_of_lookup hav))
        have hdrop := drop_succ_segsOf (.removeAt (childPath path k) av) hplace
        rw [hfilter, foldlM_cons, entryStep, hdrop]
        exact .inl rfl
      | some bv =>
        simp only [hav, hbv, entryDiff] at hfilter
        rw [foldlM_entryStep fun ch hch hrest => ?_]
        · exact (ih k av bv hav hbv chs' hfilter).map some
        · obtain ⟨rel, hrel, hop⟩ := (hedits k av bv hav hbv).located (hfilter.subset hch)
          have hlen : pre.length + 1 = (pre ++ [PathSeg.key k]).length := by simp
          rw [hlen, drop_segsOf _ hrel] at hrest
          exact hop hrest
  · rintro _ ⟨m, rfl, hm⟩ hentries
    rw [ext_lookup hm hb hentries]

end Objects

/-! ### Arrays

The parts of an array are its first `n` elements, `n` being the length two arrays have in common,
and what follows them. -/

section Arrays

variable {path : String} {pre : List PathSeg} {opts : DiffOptions} {n : Nat}

/-- The part that a change names at depth `d`. -/
def sliceAt (d n : Nat) (ch : Change) : Nat :=
  match (segsOf ch).drop d with
  | .index i :: _ => min i.toNat n
  | _ => n

/-- A part of an array: one of the first elements, or what follows them. -/
def sliceOf (n : Nat) (v : Json) (j : Nat) : List Json :=
  match v with
  | .arr xs => if j < n then xs[j]?.toList else if j = n then xs.drop n else []
  | _ => []

/-- The step on the part, at the position counted from where the part begins. -/
def sliceStep (d n : Nat) (slice : List Json) (ch : Change) : Except DiffErr (List Json) :=
  match (segsOf ch).drop d with
  | .index i :: rest => applyElems ch slice (i.toNat - min i.toNat n : Nat) rest
  | _ => .ok slice

variable {ch : Change} {i : Nat} {rest : List PathSeg} {chs : List Change}

private theorem sliceAt_eq (h : parsePath ch.path = .ok (pre ++ .index i :: rest)) :
    sliceAt pre.length n ch = min i n := by
  rw [sliceAt, drop_segsOf _ h]
  rfl

private theorem sliceStep_eq (h : parsePath ch.path = .ok (pre ++ .index i :: rest))
    (slice : List Json) :
    sliceStep pre.length n slice ch = applyElems ch slice (i - min i n : Nat) rest := by
  rw [sliceStep, drop_segsOf _ h]
  rfl

private theorem applyElems_head (h : rest = [] → ch.op = .change) (x : Json) (xs : List Json) :
    applyElems ch (x :: xs) 0 rest = (applyAt ch x rest).map (· :: xs) := by
  have hin : ¬((0 : Int) < 0 ∨ ((x :: xs).length : Int) ≤ 0) := by
    rw [length_cons]
    omega
  cases rest with
  | nil =>
    simp only [applyElems, h rfl, if_neg hin, applyAt, if_true]
    rfl
  | cons s rest =>
    simp only [applyElems, if_neg hin, applyAt]
    rfl

private theorem separate_index (h : parsePath ch.path = .ok (pre ++ .index i :: rest))
    (hop : i < n → rest = [] → ch.op = .change) :
    Separate (applyBelow pre.length) (sliceStep pre.length n) (sliceAt pre.length n) (sliceOf n)
      (fun v => ∃ xs, v = .arr xs ∧ n ≤ xs.length) ch := by
  rintro _ ⟨xs, rfl, hn⟩
  have hstep : applyBelow pre.length (.arr xs) ch = (applyElems ch xs i rest).map .arr := by
    rw [applyBelow, drop_segsOf _ h]
    exact applyStep_arr ch xs i rest
  rw [hstep, sliceStep_eq h, sliceAt_eq h]
  rcases Nat.lt_or_ge i n with hi | hi
  · -- one of the first elements
    obtain ⟨l, x, m, rfl, rfl⟩ : ∃ l x m, xs = l ++ x :: m ∧ l.length = i :=
      ⟨xs.take i, xs[i], xs.drop (i + 1), by simp, by simp; omega⟩
    have hslice : ∀ y, sliceOf n (.arr (l ++ y :: m)) l.length = [y] := by
      intro y
      rw [sliceOf, if_pos hi]
      simp
    have hwhole := applyElems_append ch l (x :: m) 0 rest
    simp only [Nat.add_zero, Nat.cast_zero, applyElems_head (hop hi)] at hwhole
    rw [Nat.min_eq_left hi.le, Nat.sub_self, hslice, hwhole, Nat.cast_zero,
      applyElems_head (hop hi)]
    constructor
    · intro e he
      cases hval : applyAt ch x rest with
      | ok y => simp [hval, Except.map] at he
      | error e' =>
        simp only [hval, Except.map, Except.error.injEq] at he
        rw [he]
        rfl
    · intro c hc
      cases hval : applyAt ch x rest with
      | error e => simp [hval, Except.map] at hc
      | ok y =>
        simp only [hval, Except.map, Except.ok.injEq] at hc
        refine ⟨.arr (l ++ y :: m), rfl, ⟨_, rfl, by simpa using hn⟩, by rw [hslice, hc], ?_⟩
        intro j hj
        simp only [sliceOf]
        have hget : (l ++ y :: m)[j]? = (l ++ x :: m)[j]? := by
          have hset : l ++ y :: m = (l ++ x :: m).set l.length y := by simp
          rw [hset, getElem?_set_ne (Ne.symm hj)]
        have hdrop : (l ++ y :: m).drop n = (l ++ x :: m).drop n := by
          obtain ⟨k, rfl⟩ := Nat.exists_eq_add_of_lt hi
          simp [drop_append, Nat.add_assoc]
        rw [hget, hdrop]
  · -- the tail
    obtain ⟨k, rfl⟩ := Nat.exists_eq_add_of_le hi
    obtain ⟨l, t, rfl, rfl⟩ : ∃ l t, xs = l ++ t ∧ l.length = n :=
      ⟨xs.take n, xs.drop n, by simp, by simp; omega⟩
    have hslice : ∀ t', sliceOf l.length (.arr (l ++ t')) l.length = t' := by
      intro t'
      simp [sliceOf]
    rw [Nat.min_eq_right hi, Nat.add_sub_cancel_left, hslice, applyElems_append]
    constructor
    · intro e he
      rw [he]
      rfl
    · intro t' ht'
      refine ⟨.arr (l ++ t'), by rw [ht']; rfl, ⟨_, rfl, by simp⟩, hslice t', ?_⟩
      intro j hj
      simp only [sliceOf, if_neg hj]
      split_ifs with hlt
      · rw [getElem?_append_left hlt, getElem?_append_left hlt]
      · rfl

private theorem foldlM_sliceStep {j : Nat} (hj : j < n)
    (h : ∀ ch ∈ chs, ∃ rest, parsePath ch.path = .ok (pre ++ .index j :: rest) ∧
      (rest = [] → ch.op = .change)) (v : Json) :
    chs.foldlM (sliceStep pre.length n) [v] =
      (chs.foldlM (applyBelow (pre.length + 1)) v).map fun x => [x] := by
  induction chs generalizing v with
  | nil => rfl
  | cons ch chs ih =>
    obtain ⟨⟨rest, hrest, hop⟩, hchs⟩ := forall_mem_cons.mp h
    have hstep : sliceStep pre.length n [v] ch =
        (applyBelow (pre.length + 1) v ch).map fun x => [x] := by
      rw [sliceStep_eq hrest, applyBelow, drop_succ_segsOf _ hrest, Nat.min_eq_left hj.le,
        Nat.sub_self, Nat.cast_zero, applyElems_head hop]
    rw [foldlM_cons, foldlM_cons, hstep]
    cases applyBelow (pre.length + 1) v ch with
    | error e => rfl
    | ok u => exact ih hchs u

private theorem sliceStep_addAt (hpre : parsePath path = .ok pre) (hi : n + i < 2 ^ 63)
    (slice : List Json) (x : Json) :
    sliceStep pre.length n slice (.addAt (indexPath path (n + i)) x) =
      if slice.length < i then .error (.pathNotFound (indexPath path (n + i)))
      else .ok (slice.insertIdx i x) := by
  rw [sliceStep_eq (parsePath_indexPath hpre hi), Nat.min_eq_right (Nat.le_add_right n i),
    Nat.add_sub_cancel_left]
  have hneg : ((i : Int) < 0 ∨ (slice.length : Int) < i) ↔ slice.length < i := by omega
  simp only [applyElems, Change.addAt, hneg, Int.toNat_natCast]

private theorem sliceStep_removeAt (hpre : parsePath path = .ok pre) (hi : n + i < 2 ^ 63)
    (slice : List Json) (x : Json) :
    sliceStep pre.length n slice (.removeAt (indexPath path (n + i)) x) =
      if slice.length ≤ i then .error (.pathNotFound (indexPath path (n + i)))
      else .ok (slice.eraseIdx i) := by
  rw [sliceStep_eq (parsePath_indexPath hpre hi), Nat.min_eq_right (Nat.le_add_right n i),
    Nat.add_sub_cancel_left]
  have hneg : ((i : Int) < 0 ∨ (slice.length : Int) ≤ i) ↔ slice.length ≤ i := by omega
  simp only [applyElems, Change.removeAt, hneg, Int.toNat_natCast]

private theorem exists_of_mem_zipIdx {xs : List Json} {k : Nat} {p : Json × Nat}
    (h : p ∈ xs.zipIdx k) : ∃ j, p.2 = k + j ∧ xs[j]? = some p.1 := by
  obtain ⟨hle, hget⟩ := mk_mem_zipIdx_iff_le_and_getElem?_sub.mp h
  exact ⟨p.2 - k, by omega, hget⟩

/-- Additions at the end succeed in ascending order only: any other one is beyond the end. -/
theorem reaches_addTail (hpre : parsePath path = .ok pre) {xs : List Json} (slice : List Json)
    (hperm : chs.Perm ((xs.zipIdx (n + slice.length)).map fun p =>
      .addAt (indexPath path p.2) p.1)) (hlen : n + slice.length + xs.length < 2 ^ 63) :
    Reaches (chs.foldlM (sliceStep pre.length n) slice) (slice ++ xs) := by
  induction chs generalizing xs slice with
  | nil =>
    have hnil : xs = [] := by simpa using hperm.symm.eq_nil
    rw [hnil, append_nil]
    exact .inl rfl
  | cons ch chs ih =>
    obtain ⟨⟨x, i⟩, hp, rfl⟩ := mem_map.mp (hperm.subset mem_cons_self)
    obtain ⟨j, rfl, hx⟩ := exists_of_mem_zipIdx hp
    have hj : j < xs.length := (List.getElem?_eq_some_iff.mp hx).1
    have hstep := sliceStep_addAt (n := n) (i := slice.length + j) hpre (by omega) slice x
    rw [← Nat.add_assoc] at hstep
    rw [foldlM_cons, hstep]
    cases j with
    | succ j =>
      rw [if_pos (by omega)]
      exact .inr ⟨_, rfl, rfl⟩
    | zero =>
      -- the next element is added: the others remain
      cases xs with
      | nil => cases hx
      | cons y xs =>
        cases hx
        rw [if_neg (by omega), Nat.add_zero, insertIdx_length_self]
        have hrest : chs.Perm ((xs.zipIdx (n + (slice ++ [x]).length)).map fun p =>
            .addAt (indexPath path p.2) p.1) := by
          rw [zipIdx_cons, map_cons, Nat.add_zero] at hperm
          simpa [Nat.add_assoc] using hperm.cons_inv
        have hdone := ih _ hrest (by simp at hlen ⊢; omega)
        rwa [append_assoc, singleton_append] at hdone

private theorem indexPath_inj (hpre : parsePath path = .ok pre) {j : Nat} (hi : i < 2 ^ 63)
    (hj : j < 2 ^ 63) (h : indexPath path i = indexPath path j) : i = j := by
  have hread := parsePath_indexPath hpre hi
  rw [h, parsePath_indexPath hpre hj] at hread
  simpa using hread.symm

private theorem error_of_removeTail (hpre : parsePath path = .ok pre) {slice : List Json}
    (hchs : ∀ ch ∈ chs, ∃ i x, ch = .removeAt (indexPath path (n + i)) x ∧ n + i < 2 ^ 63)
    (hbeyond : ∃ i x, .removeAt (indexPath path (n + i)) x ∈ chs ∧ n + i < 2 ^ 63 ∧
      slice.length ≤ i) :
    ∃ e, chs.foldlM (sliceStep pre.length n) slice = .error e ∧ e.sentinel = .pathNotFound := by
  induction chs generalizing slice with
  | nil =>
    obtain ⟨i, x, hmem, -⟩ := hbeyond
    exact absurd hmem not_mem_nil
  | cons ch chs ih =>
    obtain ⟨⟨i, x, rfl, hi⟩, hrest⟩ := forall_mem_cons.mp hchs
    rw [foldlM_cons, sliceStep_removeAt hpre hi]
    split_ifs with hle
    · exact ⟨_, rfl, rfl⟩
    · refine ih hrest ?_
      obtain ⟨i', x', hmem, hi', hlen⟩ := hbeyond
      rcases mem_cons.mp hmem with heq | hmem
      · have := indexPath_inj hpre hi' hi (congrArg Change.path heq)
        omega
      · exact ⟨i', x', hmem, hi', (length_eraseIdx_le slice i).trans hlen⟩

private theorem reaches_removeTail (hpre : parsePath path = .ok pre) {xs slice : List Json}
    (hperm : chs.Perm ((xs.zipIdx n).map fun p => .removeAt (indexPath path p.2) p.1))
    (hxs : xs.length = slice.length) (hlen : n + xs.length < 2 ^ 63) :
    Reaches (chs.foldlM (sliceStep pre.length n) slice) [] := by
  induction chs generalizing xs slice with
  | nil =>
    have hnil : xs = [] := by simpa using hperm.symm.eq_nil
    have hslice : slice = [] := length_eq_zero_iff.mp (by rw [← hxs, hnil]; rfl)
    rw [hslice]
    exact .inl rfl
  | cons ch chs ih =>
    obtain ⟨⟨x, i⟩, hp, rfl⟩ := mem_map.mp (hperm.subset mem_cons_self)
    obtain ⟨j, rfl, hx⟩ := exists_of_mem_zipIdx hp
    have hj : j < xs.length := (List.getElem?_eq_some_iff.mp hx).1
    obtain ⟨ys, y, rfl⟩ : ∃ ys y, xs = ys ++ [y] :=
      (eq_nil_or_concat' xs).resolve_left (by rintro rfl; simp at hj)
    rw [length_append, length_singleton] at hxs hlen hj
    rw [foldlM_cons, sliceStep_removeAt hpre (by omega), if_neg (by omega)]
    rcases Nat.lt_or_ge j ys.length with hlt | hge
    · -- the last one is still to come, and will not be there
      refine .inr (error_of_removeTail hpre (fun ch hch => ?_) ⟨ys.length, y, ?_, by omega, ?_⟩)
      · obtain ⟨⟨z, k⟩, hq, rfl⟩ := mem_map.mp (hperm.subset (mem_cons_of_mem _ hch))
        obtain ⟨k, rfl, hz⟩ := exists_of_mem_zipIdx hq
        have hk := (List.getElem?_eq_some_iff.mp hz).1
        rw [length_append, length_singleton] at hk
        exact ⟨k, z, rfl, by omega⟩
      · have hlast : Change.removeAt (indexPath path (n + ys.length)) y ∈
            .removeAt (indexPath path (n + j)) x :: chs :=
          hperm.symm.subset (mem_map.mpr
            ⟨(y, n + ys.length), by simp [zipIdx_append], rfl⟩)
        refine (mem_cons.mp hlast).resolve_left fun heq => ?_
        have := indexPath_inj hpre (by omega) (by omega) (congrArg Change.path heq)
        omega
      · rw [length_eraseIdx_of_lt (by omega)]
        omega
    · -- the last one is removed
      obtain rfl : j = ys.length := by omega
      have hxy : y = x := by simpa using hx
      subst hxy
      rw [zipIdx_append, map_append] at hperm
      have hys : chs.Perm ((ys.zipIdx n).map fun p => .removeAt (indexPath path p.2) p.1) :=
        (hperm.trans perm_append_comm).cons_inv
      exact ih hys (by rw [length_eraseIdx_of_lt (by omega)]; omega) (by omega)

/-- The changes to one part of an array. -/
def sliceDiff (opts : DiffOptions) (path : String) (aa ba : List Json) (j : Nat) : List Change :=
  if j < min aa.length ba.length then
    diffValue opts (indexPath path j) (aa.getD j .null) (ba.getD j .null)
  else arrayTail path aa ba

private theorem indexDiff_eq_flatMap (aa ba : List Json) :
    diffElems opts path 0 aa ba ++ arrayTail path aa ba =
      (List.range (min aa.length ba.length + 1)).flatMap (sliceDiff opts path aa ba) := by
  rw [range_succ, flatMap_append, flatMap_singleton, diffElems_eq_flatMap]
  congr 1
  · refine flatMap_congr fun j hj => ?_
    rw [sliceDiff, if_pos (mem_range.mp hj), Nat.zero_add]
  · rw [sliceDiff, if_neg (lt_irrefl _)]

private theorem reaches_arrayTail (hpre : parsePath path = .ok pre) {aa ba : List Json}
    (ha : aa.length < 2 ^ 63) (hb : ba.length < 2 ^ 63) (hperm : chs.Perm (arrayTail path aa ba)) :
    Reaches (chs.foldlM (sliceStep pre.length (min aa.length ba.length))
      (aa.drop (min aa.length ba.length))) (ba.drop (min aa.length ba.length)) := by
  rw [arrayTail, addedTail, removedTail] at hperm
  rcases Nat.le_total aa.length ba.length with hle | hle
  · rw [Nat.min_eq_left hle, drop_length] at hperm ⊢
    exact reaches_addTail hpre [] (by simpa using hperm)
      (by simp only [length_nil, length_drop]; omega)
  · rw [Nat.min_eq_right hle, drop_length] at hperm ⊢
    simp only [zipIdx_nil, map_nil, nil_append, map_reverse] at hperm
    exact reaches_removeTail hpre (hperm.trans (reverse_perm _)) rfl
      (by rw [length_drop]; omega)

private theorem exists_of_mem_arrayTail {aa ba : List Json} (ha : aa.length < 2 ^ 63)
    (hb : ba.length < 2 ^ 63) (hch : ch ∈ arrayTail path aa ba) :
    ∃ i, min aa.length ba.length ≤ i ∧ i < 2 ^ 63 ∧ ch.path = indexPath path i := by
  rw [arrayTail, mem_append, mem_addedTail_iff, mem_removedTail_iff] at hch
  obtain ⟨i, x, hle, hx, rfl⟩ | ⟨i, x, hle, hx, rfl⟩ := hch
  · exact ⟨i, hle, (List.getElem?_eq_some_iff.mp hx).1.trans hb, rfl⟩
  · exact ⟨i, hle, (List.getElem?_eq_some_iff.mp hx).1.trans ha, rfl⟩

/-- **Arrays compared by position.** -/
theorem reaches_indexArray (hpre : parsePath path = .ok pre) {aa ba : List Json}
    (ha : aa.length < 2 ^ 63) (hb : ba.length < 2 ^ 63)
    (hedits : ∀ j av bv, aa[j]? = some av → ba[j]? = some bv →
      Edits (pre ++ [.index (j : Nat)]) (diffValue opts (indexPath path j) av bv) av bv)
    (ih : ∀ j av bv, aa[j]? = some av → ba[j]? = some bv → ∀ chs : List Change,
      chs.Perm (diffValue opts (indexPath path j) av bv) →
      Reaches (chs.foldlM (applyBelow (pre.length + 1)) av) bv)
    (hperm : chs.Perm (diffElems opts path 0 aa ba ++ arrayTail path aa ba)) :
    Reaches (chs.foldlM (applyBelow pre.length) (.arr aa)) (.arr ba) := by
  rw [indexDiff_eq_flatMap] at hperm
  have hget : ∀ j < min aa.length ba.length, aa[j]? = some (aa.getD j .null) ∧
      ba[j]? = some (ba.getD j .null) := by
    intro j hj
    rw [Nat.lt_min] at hj
    simp [hj.1, hj.2]
  have htail (chs' : List Change) (h : chs'.Perm (arrayTail path aa ba)) :=
    reaches_arrayTail hpre ha hb h
  have hplace : ∀ ch ∈ arrayTail path aa ba, ∃ i, min aa.length ba.length ≤ i ∧ i < 2 ^ 63 ∧
      ch.path = indexPath path i := fun ch hch => exists_of_mem_arrayTail ha hb hch
  have hslice : ∀ j < min aa.length ba.length, sliceDiff opts path aa ba j =
      diffValue opts (indexPath path j) (aa.getD j .null) (ba.getD j .null) := fun j hj => if_pos hj
  have hlast : sliceDiff opts path aa ba (min aa.length ba.length) = arrayTail path aa ba :=
    if_neg (lt_irrefl _)
  have hn : min aa.length ba.length ≤ aa.length ∧ min aa.length ba.length ≤ ba.length :=
    ⟨Nat.min_le_left .., Nat.min_le_right ..⟩
  generalize min aa.length ba.length = n at hperm hget htail hplace hslice hlast hn
  -- every change is at its part
  have hloc : ∀ j ∈ List.range (n + 1), ∀ ch ∈ sliceDiff opts path aa ba j, ∃ i rest,
      parsePath ch.path = .ok (pre ++ .index (i : Nat) :: rest) ∧ min i n = j ∧
      (i < n → rest = [] → ch.op = .change) := by
    intro j hj ch hch
    rcases Nat.lt_or_ge j n with hlt | hge
    · rw [hslice j hlt] at hch
      obtain ⟨hav, hbv⟩ := hget j hlt
      obtain ⟨rest, hrest, hop⟩ := (hedits j _ _ hav hbv).located hch
      exact ⟨j, rest, by simpa using hrest, Nat.min_eq_left hlt.le, fun _ => hop⟩
    · obtain rfl : j = n := by
        have := mem_range.mp hj
        omega
      rw [hlast] at hch
      obtain ⟨i, hle, hi, hpath⟩ := hplace ch hch
      refine ⟨i, [], by rw [hpath, parsePath_indexPath hpre hi], Nat.min_eq_right hle, ?_⟩
      omega
  refine reaches_of_parts (sliceStep pre.length n) (sliceAt pre.length n) (sliceOf n)
    (fun v => ∃ xs, v = .arr xs ∧ n ≤ xs.length) ?_ ⟨aa, rfl, hn.1⟩ ?_ ?_
  · intro ch hch
    obtain ⟨j, hj, hmem⟩ := mem_flatMap.mp (hperm.subset hch)
    obtain ⟨i, rest, hrest, -, hop⟩ := hloc j hj ch hmem
    exact separate_index hrest hop
  · intro j
    -- the changes to this part, in some order
    have hfilter := hperm.filter fun ch => sliceAt pre.length n ch = j
    rw [filter_flatMap nodup_range (fun j' hj' ch hch => ?_)] at hfilter
    · generalize (chs.filter fun ch => sliceAt pre.length n ch = j) = chs' at hfilter ⊢
      simp only [sliceOf]
      rcases lt_trichotomy j n with hlt | rfl | hgt
      · obtain ⟨hav, hbv⟩ := hget j hlt
        rw [if_pos (mem_range.mpr (by omega)), hslice j hlt] at hfilter
        rw [if_pos hlt, if_pos hlt, hav, hbv, Option.toList_some, Option.toList_some,
          foldlM_sliceStep hlt fun ch hch => ?_]
        · exact (ih j _ _ hav hbv chs' hfilter).map fun x => [x]
        · obtain ⟨rest, hrest, hop⟩ := (hedits j _ _ hav hbv).located (hfilter.subset hch)
          exact ⟨rest, by simpa using hrest, hop⟩
      · rw [if_pos (mem_range.mpr (by omega)), hlast] at hfilter
        rw [if_neg (lt_irrefl _), if_pos rfl, if_neg (lt_irrefl _), if_pos rfl]
        exact htail chs' hfilter
      · rw [if_neg fun h => absurd (mem_range.mp h) (by omega), perm_nil] at hfilter
        rw [if_neg hgt.not_gt, if_neg hgt.ne', if_neg hgt.not_gt, if_neg hgt.ne', hfilter]
        exact .inl rfl
    · obtain ⟨i, rest, hrest, hmin, -⟩ := hloc j' hj' ch hch
      rw [sliceAt_eq hrest, hmin]
  · rintro _ ⟨xs, rfl, hxs⟩ hparts
    congr 1
    refine ext_getElem? fun j => ?_
    rcases Nat.lt_or_ge j n with hlt | hge
    · have hpart := hparts j
      simp only [sliceOf, if_pos hlt, (hget j hlt).2] at hpart
      rw [(hget j hlt).2]
      simpa [getElem?_eq_getElem (hlt.trans_le hxs)] using hpart
    · have hpart := hparts n
      simp only [sliceOf, if_neg (lt_irrefl n), if_true] at hpart
      obtain ⟨k, rfl⟩ := Nat.exists_eq_add_of_le hge
      rw [← getElem?_drop, hpart, getElem?_drop]

end Arrays

/-! ### The whole value -/

private theorem reaches_replace {path : String} {pre : List PathSeg}
    (hpre : parsePath path = .ok pre) {a b : Json} (hperm : chs.Perm [⟨path, .change, a, b⟩]) :
    Reaches (chs.foldlM (applyBelow pre.length) a) b := by
  have hdrop : (segsOf ⟨path, .change, a, b⟩).drop pre.length = [] :=
    drop_segsOf _ (by simpa using hpre)
  rw [perm_singleton.mp hperm, foldlM_cons, applyBelow, hdrop]
  exact .inl rfl

private theorem reaches_same {pre : List PathSeg} {a b : Json} (h : a = b) (hperm : chs.Perm []) :
    Reaches (chs.foldlM (applyBelow pre.length) a) b := by
  rw [perm_nil.mp hperm, h]
  exact .inl rfl

private theorem reaches_diffValue {opts : DiffOptions} (hopts : opts.arrayKeys = []) {a b : Json}
    {path : String} {pre : List PathSeg} (hpre : parsePath path = .ok pre) (ha : a.Regular)
    (hb : b.Regular) (hperm : chs.Perm (diffValue opts path a b)) :
    Reaches (chs.foldlM (applyBelow pre.length) a) b := by
  induction a using Json.induction generalizing b path pre chs with
  | null | bool | num | str =>
    unfold diffValue at hperm
    split_ifs at hperm with heq
    · exact reaches_same heq hperm
    · exact reaches_replace hpre hperm
  | arr aa ih =>
    unfold diffValue at hperm
    split_ifs at hperm with heq
    · exact reaches_same heq hperm
    · cases b with
      | null | bool | num | str | obj => exact reaches_replace hpre hperm
      | arr ba =>
        obtain ⟨halen, hva⟩ := Json.regular_arr_iff.mp ha
        obtain ⟨hblen, hvb⟩ := Json.regular_arr_iff.mp hb
        simp only [hopts, lookup_nil, Option.filter_none] at hperm
        have hplace : ∀ {j av}, aa[j]? = some av → j < 2 ^ 63 := fun h =>
          (List.getElem?_eq_some_iff.mp h).1.trans halen
        refine reaches_indexArray hpre halen hblen ?_ ?_ hperm
        · intro j av bv hav hbv
          exact edits_diffValue hopts (parsePath_indexPath hpre (hplace hav))
            (fun _ _ => opens_indexPath hpre (hplace hav)) (hva av (mem_of_getElem? hav))
            (hvb bv (mem_of_getElem? hbv))
        · intro j av bv hav hbv chs hchs
          have hrec := ih av (mem_of_getElem? hav) (parsePath_indexPath hpre (hplace hav))
            (hva av (mem_of_getElem? hav)) (hvb bv (mem_of_getElem? hbv)) hchs
          rwa [length_append, length_singleton] at hrec
  | obj am ih =>
    unfold diffValue at hperm
    split_ifs at hperm with heq
    · exact reaches_same heq hperm
    · cases b with
      | null | bool | num | str | arr => exact reaches_replace hpre hperm
      | obj bm =>
        obtain ⟨hsa, hva⟩ := Json.regular_obj_iff.mp ha
        obtain ⟨hsb, hvb⟩ := Json.regular_obj_iff.mp hb
        refine reaches_diffMap hpre hsa hsb (fun p hp => (hva p hp).1) (fun p hp => (hvb p hp).1)
          ?_ ?_ hperm
        · intro k av bv hav hbv
          obtain ⟨hplain, hreg⟩ := hva _ (mem_of_lookup hav)
          exact edits_diffValue hopts (parsePath_childPath_key hpre hplain)
            (fun _ _ => opens_childPath hpre hplain) hreg (hvb _ (mem_of_lookup hbv)).2
        · intro k av bv hav hbv chs hchs
          have hmem := mem_of_lookup hav
          obtain ⟨hplain, hreg⟩ := hva _ hmem
          have hrec := ih _ hmem (parsePath_childPath_key hpre hplain) hreg
            (hvb _ (mem_of_lookup hbv)).2 hchs
          rwa [length_append, length_singleton] at hrec

/-- **Any order.** Applying the changes between two regular values in any order gives the second
value or stops with `ErrPathNotFound`. -/
theorem apply_perm_diff {a b : Json} (ha : a.Regular) (hb : b.Regular) {chs : List Change}
    (hperm : chs.Perm (diff a b {})) :
    apply a chs = .ok b ∨ ∃ e, apply a chs = .error e ∧ e.sentinel = .pathNotFound := by
  have hedits : Edits [] (diff a b {}) a b :=
    edits_diffValue rfl rfl (fun _ _ => opens_root) ha hb
  have hread : ∀ ch ∈ chs, ∃ segs, parsePath ch.path = .ok segs := by
    intro ch hch
    obtain ⟨rel, hrel, -⟩ := hedits.located (hperm.subset hch)
    exact ⟨rel, hrel⟩
  rw [apply_eq_foldlM hread]
  have hroot : parsePath "" = .ok [] := rfl
  exact reaches_diffValue rfl hroot ha hb hperm

/-- The two orders of two elements at the end: ascending gives the target, descending stops. -/
theorem apply_perm_diff_tail :
    let a := Json.obj [("xs", .arr [])]
    let b := Json.obj [("xs", .arr [.bool true, .bool false])]
    apply a (diff a b {}).reverse = .error (.pathNotFound "xs.1") ∧
      (DiffErr.pathNotFound "xs.1").sentinel = .pathNotFound := by
  intro a b
  have hregular : a.Regular ∧ b.Regular := ⟨⟨by decide, by decide⟩, ⟨by decide, by decide⟩⟩
  obtain hok | ⟨e, he, hsent⟩ :=
    apply_perm_diff hregular.1 hregular.2 (reverse_perm (diff a b {}))
  · exact absurd hok (by decide +kernel)
  · have herr : e = .pathNotFound "xs.1" := by
      have hrun : apply a (diff a b {}).reverse = .error (.pathNotFound "xs.1") := by decide +kernel
      exact Except.error.inj (he.symm.trans hrun)
    exact ⟨herr ▸ he, herr ▸ hsent⟩

end Letopis
