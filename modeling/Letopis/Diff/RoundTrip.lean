import Letopis.Diff.Parts

/-!
# Applying a diff reaches the target

The changes between `a` and `b` are applied to a value `r` that is `a` up to the order of its
keyed arrays (`alike`). The result is `b`, rearranged after `r` (`rebuilds_diffValue`); with
`r = a` this is what applying a diff to its own left side gives (`apply_diff_rearranged`), and
without configured keys it is the round trip `apply_diff`.

The keys of the values are ones dot-notation can carry (`Json.PlainKeys`), and so are the key
fields and key values of the arrays that are compared by key.
-/

namespace Letopis

open SortedAssoc List

section

variable {path : String} {pre : List PathSeg} {opts : DiffOptions}

/-! ### Changes keep keys -/

private theorem mem_diffValue_scalar {av bv : Json} {ks : String} (hav : keyValString av = some ks)
    {ch : Change} (hch : ch ∈ diffValue opts path av bv) : ch = ⟨path, .change, av, bv⟩ := by
  unfold diffValue at hch
  split_ifs at hch
  · exact absurd hch not_mem_nil
  · cases av with
    | null | arr | obj => cases hav
    | bool | num | str => simpa using hch

private theorem keepsKey_of_mem_diffMap (hpre : parsePath path = .ok pre) {am bm : Fields}
    (ha : Sorted am) (hb : Sorted bm) (hka : ∀ p ∈ am, PlainKey p.1) (hkb : ∀ p ∈ bm, PlainKey p.1)
    (hloc : ∀ k av bv, am.lookup k = some av → bm.lookup k = some bv →
      ∀ ch ∈ diffValue opts (childPath path k) av bv, ∃ rel,
        parsePath ch.path = .ok (pre ++ [.key k] ++ rel)) {kf ks : String}
    (hakey : elemKey kf (.obj am) = some ks) (hbkey : elemKey kf (.obj bm) = some ks)
    {ch : Change} (hch : ch ∈ diffMap opts path am bm) {rel : List PathSeg}
    (hrel : parsePath ch.path = .ok (pre ++ rel)) : KeepsKey kf ks ch rel := by
  obtain ⟨va, hva, hvakey⟩ := Option.bind_eq_some_iff.mp hakey
  obtain ⟨vb, hvb, hvbkey⟩ := Option.bind_eq_some_iff.mp hbkey
  obtain ⟨k, hk⟩ := (mem_diffMap_iff ha hb).mp hch
  -- a change of a whole entry is at its key
  have hwhole (hplain : PlainKey k) (hpath : ch.path = childPath path k) : rel = [.key k] := by
    rw [hpath, parsePath_childPath_key hpre hplain] at hrel
    exact (append_cancel_left (Except.ok.inj hrel)).symm
  obtain ⟨hpath, hsome, hnone⟩ | ⟨av, bv, hav, hbv, hk⟩ := mem_entryDiff hk
  · refine ⟨k, [], hwhole (plainKey_of_lookup hka hkb hsome) hpath, ?_⟩
    rintro rfl
    simp [hva, hvb] at hnone
  · obtain ⟨rest, hrest⟩ := hloc k av bv hav hbv ch hk
    rw [hrel, append_assoc] at hrest
    refine ⟨k, rest, by simpa using hrest, ?_⟩
    rintro rfl
    -- the key field itself: one scalar is replaced by another with the same text
    cases Option.some.inj (hva.symm.trans hav)
    cases Option.some.inj (hvb.symm.trans hbv)
    obtain rfl := mem_diffValue_scalar hvakey hk
    have hleaf := hwhole (hka _ (mem_of_lookup hav)) rfl
    rw [hleaf] at hrest
    exact ⟨by simpa using hrest, rfl, hvbkey⟩

/-! ### The comparison of two values -/

/-- The key values that are written into paths have no dot. -/
def dotless (opts : DiffOptions) (path : String) (_ra aa ba : List Json) : Bool :=
  match opts.keyFor path aa ba with
  | some kf => (aa ++ ba).all fun el => '.' ∉ ((elemKey kf el).getD "").toList
  | none => true

/-- Where an array has a configured key and loses it, so that it is compared by position, the
edited array is the compared one. -/
def inPlace (opts : DiffOptions) (path : String) (ra aa ba : List Json) : Bool :=
  (opts.keyFor path aa aa).isNone || (opts.keyFor path aa ba).isSome || ra = aa

variable {aa : List Json}

theorem elems_of_inPlace {ra ba : List Json} (hr : alike opts path (.arr ra) (.arr aa) = true)
    (hnone : opts.keyFor path aa ba = none) (hplace : inPlace opts path ra aa ba = true) :
    ra.length = aa.length ∧ ∀ n rv av, ra[n]? = some rv → aa[n]? = some av →
      alike opts (indexPath path n) rv av = true := by
  simp only [inPlace, hnone, Option.isSome_none, Bool.or_false, Bool.or_eq_true,
    Option.isNone_iff_eq_none, decide_eq_true_eq] at hplace
  rcases hplace with hnone | rfl
  · exact alike_arr_elems hnone hr
  · refine ⟨rfl, fun n rv av hrv hav => ?_⟩
    cases Option.some.inj (hrv.symm.trans hav)
    exact alike_refl _ rv

/-- Key fields that can be written into paths. -/
def DiffOptions.MildKeys (opts : DiffOptions) : Prop :=
  ∀ p ∈ opts.arrayKeys, '.' ∉ p.2.toList ∧ '=' ∉ p.2.toList

instance (opts : DiffOptions) : Decidable opts.MildKeys :=
  inferInstanceAs (Decidable (∀ p ∈ opts.arrayKeys, _))

/-- What the changes between `a` and `b` do to a value `r`. -/
structure Rebuilds (pre : List PathSeg) (chs : List Change) (r a b out : Json) : Prop where
  edits : Edits pre chs r out
  keeps : ∀ kf ks, elemKey kf a = some ks → elemKey kf b = some ks → ∀ ch ∈ chs, ∀ rel,
    parsePath ch.path = .ok (pre ++ rel) → KeepsKey kf ks ch rel

private theorem exists_obj_of_elemKey {kf ks : String} {v : Json} (h : elemKey kf v = some ks) :
    ∃ m, v = .obj m := by
  cases v with
  | obj m => exact ⟨m, rfl⟩
  | null | bool | num | str | arr => cases h

theorem Rebuilds.of_eq {r a b : Json} (hr : alike opts path r a = true) (hb : b.WF) (h : a = b) :
    Rebuilds pre [] r a b (rearrange opts path r b) where
  edits := (rearrange_of_alike hb (h ▸ hr)).symm
  keeps := fun _ _ _ _ _ hch => absurd hch not_mem_nil

theorem Rebuilds.of_replace {r a b : Json} (hpre : parsePath path = .ok pre)
    (hobj : ∀ m m', a = .obj m → b ≠ .obj m') (hout : rearrange opts path r b = b) :
    Rebuilds pre [⟨path, .change, a, b⟩] r a b (rearrange opts path r b) where
  edits := hout.symm ▸ .replace hpre
  keeps := by
    intro kf ks hak hbk
    obtain ⟨m, rfl⟩ := exists_obj_of_elemKey hak
    obtain ⟨m', rfl⟩ := exists_obj_of_elemKey hbk
    exact absurd rfl (hobj m m' rfl)

/-- The changes between the value and another one bring what is alike to it to the other one,
rearranged, wherever the two are compared. -/
def RoundTrips (opts : DiffOptions) (a : Json) : Prop :=
  ∀ {path : String} {pre : List PathSeg} {r b : Json}, parsePath path = .ok pre →
    (∀ xs, a = .arr xs → Opens path pre) → alike opts path r a = true → a.Regular → b.Regular →
    compared (dotless opts) opts path r a b = true →
    compared (inPlace opts) opts path r a b = true →
    Rebuilds pre (diffValue opts path a b) r a b (rearrange opts path r b)

private theorem edits_arr_keyed (hopts : opts.MildKeys) (hopen : Opens path pre) {ra ba : List Json}
    {kf : String} (hkf : opts.keyFor path aa ba = some kf)
    (hr : alike opts path (.arr ra) (.arr aa) = true) (hva : ∀ x ∈ aa, x.Regular)
    (hvb : ∀ x ∈ ba, x.Regular)
    (hdots : compared (dotless opts) opts path (.arr ra) (.arr aa) (.arr ba) = true)
    (hplace : compared (inPlace opts) opts path (.arr ra) (.arr aa) (.arr ba) = true)
    (ih : ∀ av ∈ aa, RoundTrips opts av) :
    Edits pre (diffKeyed opts path kf aa ba ++ addedKeyed path kf aa ba) (.arr ra)
      (rearrange opts path (.arr ra) (.arr ba)) := by
  obtain ⟨hlook, haa, hba⟩ := keyFor_eq_some.mp hkf
  obtain ⟨hra, hperm, hmatch⟩ := alike_arr_keyed hlook haa hr
  have hfield := hopts _ (mem_of_lookup hlook)
  rw [compared, Bool.and_eq_true] at hdots hplace
  simp only [hkf, dotless, comparedKeyed_iff] at hdots hplace
  have hmild : ∀ el ∈ aa ++ ba, PathSeg.Mild (.keyed kf ((elemKey kf el).getD "")) :=
    fun el hel => ⟨hfield.1, hfield.2, by simpa using all_eq_true.mp hdots.1 el hel⟩
  simp only [rearrange, keyFor_of_alike hr, hkf]
  refine edits_keyedArray hopen hperm hba haa hmild ?_
  intro rv hrv av hav bv hbv hrkey hbkey ks hks
  have hpath : elemPath path kf av = keyedPath path kf ks := by
    rw [elemPath, hks, Option.getD_some]
  have hrfind := sameKey_eq_some (keyable_iff.mp hra).2 hrv hrkey
  have hbfind := sameKey_eq_some (keyable_iff.mp hba).2 hbv hbkey
  have hplaced := hopen kf ks (by simpa [hks] using hmild av (mem_append_left ba hav))
  have hrec := ih av hav hplaced (fun xs h => by rw [h] at hks; cases hks)
    (hpath ▸ hmatch rv hrv av hav hrkey) (hva av hav) (hvb bv hbv)
    (hpath ▸ hdots.2 av hav rv bv hrfind hbfind) (hpath ▸ hplace.2 av hav rv bv hrfind hbfind)
  exact ⟨hrec.edits, hrec.keeps kf ks hks (hbkey.trans hks)⟩

private theorem edits_arr_index (hpre : parsePath path = .ok pre) {ra ba : List Json}
    (hkf : opts.keyFor path aa ba = none) (hr : alike opts path (.arr ra) (.arr aa) = true)
    (ha : (Json.arr aa).Regular) (hb : (Json.arr ba).Regular)
    (hdots : compared (dotless opts) opts path (.arr ra) (.arr aa) (.arr ba) = true)
    (hplace : compared (inPlace opts) opts path (.arr ra) (.arr aa) (.arr ba) = true)
    (ih : ∀ av ∈ aa, RoundTrips opts av) :
    Edits pre (diffElems opts path 0 aa ba ++ arrayTail path aa ba) (.arr ra)
      (rearrange opts path (.arr ra) (.arr ba)) := by
  obtain ⟨halen, hva⟩ := Json.regular_arr_iff.mp ha
  obtain ⟨hblen, hvb⟩ := Json.regular_arr_iff.mp hb
  rw [compared, Bool.and_eq_true] at hdots hplace
  simp only [hkf, comparedElems_iff, Nat.zero_add] at hdots hplace
  have helems := elems_of_inPlace hr hkf hplace.1
  simp only [rearrange, keyFor_of_alike hr, hkf]
  refine edits_indexArray hpre helems.1 halen hblen ?_
  intro n rv av bv hrv hav hbv
  have hn : n < 2 ^ 63 := (List.getElem?_eq_some_iff.mp hav).1.trans halen
  exact (ih av (mem_of_getElem? hav) (parsePath_indexPath hpre hn)
    (fun _ _ => opens_indexPath hpre hn) (helems.2 n rv av hrv hav)
    (hva av (mem_of_getElem? hav)) (hvb bv (mem_of_getElem? hbv))
    (hdots.2 n rv av bv hrv hav hbv) (hplace.2 n rv av bv hrv hav hbv)).edits

/-- **Arrays.** -/
theorem roundTrips_arr (hopts : opts.MildKeys) (ih : ∀ av ∈ aa, RoundTrips opts av) :
    RoundTrips opts (.arr aa) := by
  intro path pre r b hpre hopen hr ha hb hdots hplace
  cases r with
  | null | bool | num | str | obj => simp [alike] at hr
  | arr ra =>
    by_cases heq : Json.arr aa = b
    · rw [diffValue_of_eq heq]
      exact .of_eq hr hb.wf heq
    · cases b with
      | null | bool | num | str | obj =>
        unfold diffValue
        rw [if_neg heq]
        exact .of_replace hpre (fun m m' h => by cases h) rfl
      | arr ba =>
        refine ⟨?_, fun kf ks hak => by cases hak⟩
        have hva := (Json.regular_arr_iff.mp ha).2
        have hvb := (Json.regular_arr_iff.mp hb).2
        cases hkf : opts.keyFor path aa ba with
        | some kf =>
          rw [diffValue_arr_keyed heq hkf]
          exact edits_arr_keyed hopts (hopen aa rfl) hkf hr hva hvb hdots hplace ih
        | none =>
          rw [diffValue_arr_index heq hkf]
          exact edits_arr_index hpre hkf hr ha hb hdots hplace ih

/-- **Objects.** -/
theorem roundTrips_obj {am : Fields} (ih : ∀ p ∈ am, RoundTrips opts p.2) :
    RoundTrips opts (.obj am) := by
  intro path pre r b hpre hopen hr ha hb hdots hplace
  cases r with
  | null | bool | num | str | arr => simp [alike] at hr
  | obj rm =>
    by_cases heq : Json.obj am = b
    · rw [diffValue_of_eq heq]
      exact .of_eq hr hb.wf heq
    · cases b with
      | null | bool | num | str | arr =>
        unfold diffValue
        rw [if_neg heq]
        exact .of_replace hpre (fun m m' _ h => by cases h) rfl
      | obj bm =>
        obtain ⟨hsa, hva⟩ := Json.regular_obj_iff.mp ha
        obtain ⟨hsb, hvb⟩ := Json.regular_obj_iff.mp hb
        rw [alike] at hr
        rw [compared, comparedFields_iff] at hdots hplace
        have hchild : ∀ k rv av bv, rm.lookup k = some rv → am.lookup k = some av →
            bm.lookup k = some bv → Rebuilds (pre ++ [.key k])
              (diffValue opts (childPath path k) av bv) rv av bv
              (rearrange opts (childPath path k) rv bv) := by
          intro k rv av bv hrv hav hbv
          have hmem := mem_of_lookup hav
          obtain ⟨hplain, hreg⟩ := hva _ hmem
          obtain ⟨-, hav'⟩ | ⟨rv', av', hrv', hav', hval⟩ := lookup_of_alikeFields hr k
          · cases hav.symm.trans hav'
          · cases Option.some.inj (hrv.symm.trans hrv')
            cases Option.some.inj (hav.symm.trans hav')
            exact ih _ hmem (parsePath_childPath_key hpre hplain)
              (fun _ _ => opens_childPath hpre hplain) hval hreg (hvb _ (mem_of_lookup hbv)).2
              (hdots _ hmem rv bv hrv hbv) (hplace _ hmem rv bv hrv hbv)
        have hka : ∀ p ∈ am, PlainKey p.1 := fun p hp => (hva p hp).1
        have hkb : ∀ p ∈ bm, PlainKey p.1 := fun p hp => (hvb p hp).1
        rw [diffValue, if_neg heq]
        refine ⟨edits_diffMap hpre hr hsa hsb hka hkb fun k rv av bv hrv hav hbv =>
          (hchild k rv av bv hrv hav hbv).edits, fun kf ks hak hbk ch hch rel hrel =>
          keepsKey_of_mem_diffMap hpre hsa hsb hka hkb ?_ hak hbk hch hrel⟩
        intro k av bv hav hbv ch hch
        obtain ⟨-, hav'⟩ | ⟨rv, av', hrv, -, -⟩ := lookup_of_alikeFields hr k
        · cases hav.symm.trans hav'
        · obtain ⟨rel, hrel, -⟩ := (hchild k rv av bv hrv hav hbv).edits.located hch
          exact ⟨rel, hrel⟩

private theorem roundTrips (hopts : opts.MildKeys) (a : Json) : RoundTrips opts a := by
  induction a using Json.induction with
  | null | bool | num | str =>
    intro path pre r b hpre hopen hr ha hb hdots hplace
    unfold diffValue
    split_ifs with heq
    · exact .of_eq hr hb.wf heq
    · refine .of_replace hpre (fun m m' h => by cases h) ?_
      cases r <;> cases b <;> first | rfl | simp [alike] at hr
  | arr aa ih => exact roundTrips_arr hopts ih
  | obj am ih => exact roundTrips_obj ih

/-- **The general round trip.** The changes between two regular values bring a value that is
the first one up to the order of its keyed arrays to the second one, rearranged. -/
theorem rebuilds_diffValue (hopts : opts.MildKeys) {r a b : Json} (hpre : parsePath path = .ok pre)
    (hopen : ∀ xs, a = .arr xs → Opens path pre) (hr : alike opts path r a = true)
    (ha : a.Regular) (hb : b.Regular) (hdots : compared (dotless opts) opts path r a b = true)
    (hplace : compared (inPlace opts) opts path r a b = true) :
    Rebuilds pre (diffValue opts path a b) r a b (rearrange opts path r b) :=
  roundTrips hopts a hpre hopen hr ha hb hdots hplace

end

/-! ### The round trip -/

variable {opts : DiffOptions} {path : String}

private theorem rearrange_of_nil (hopts : opts.arrayKeys = []) (path : String) (a b : Json) :
    rearrange opts path a b = b := by
  induction b using Json.induction generalizing a path with
  | null | bool | num | str => cases a <;> rfl
  | arr ba ih =>
    cases a with
    | null | bool | num | str | obj => rfl
    | arr aa =>
      have hnone : opts.keyFor path aa ba = none := by simp [DiffOptions.keyFor, hopts]
      have helems : ∀ (i : Nat) (aa : List Json), rearrangeElems opts path i aa ba = ba := by
        clear hnone
        induction ba with
        | nil => intro i aa; cases aa <;> rfl
        | cons bv ba ihba =>
          intro i aa
          cases aa with
          | nil => rfl
          | cons av aa =>
            rw [rearrangeElems, ih bv mem_cons_self,
              ihba fun x hx => ih x (mem_cons_of_mem bv hx)]
      rw [rearrange, hnone]
      simp only [helems]
  | obj bm ih =>
    cases a with
    | null | bool | num | str | arr => rfl
    | obj am =>
      rw [rearrange, rearrangeFields_eq_map]
      congr 1
      refine (map_congr_left fun p hp => ?_).trans (map_id bm)
      simp only [rearrangeEntry, id]
      split
      · rw [ih p hp]
      · rfl

/-- No key value that is written into a path of the difference contains a dot. -/
def DiffOptions.DotlessKeys (opts : DiffOptions) (a b : Json) : Prop :=
  compared (dotless opts) opts "" a a b = true

instance (opts : DiffOptions) (a b : Json) : Decidable (opts.DotlessKeys a b) :=
  inferInstanceAs (Decidable (_ = true))

private theorem inPlace_self {a : Json} (ha : a.WF) (path : String) (b : Json) :
    compared (inPlace opts) opts path a a b = true :=
  compared_self (fun path aa ba => by simp [inPlace]) ha

/-- **Keyed arrays.** Applying the diff of two regular values to the first gives the second,
with every array that was compared by key rearranged: known elements first, in the order of the
first value, then the new ones. -/
theorem apply_diff_rearranged {opts : DiffOptions} (hopts : opts.MildKeys) {a b : Json}
    (ha : a.Regular) (hb : b.Regular) (hdots : opts.DotlessKeys a b) :
    apply a (diff a b opts) = .ok (rearrange opts "" a b) :=
  (rebuilds_diffValue hopts rfl (fun _ _ => opens_root) (alike_refl "" a) ha hb hdots
    (inPlace_self ha.wf "" b)).edits.apply_eq

/-- Lines of an order, matched by their number: one is dropped, one becomes a text with the same
digits and gets a new amount, one is new and stands in front. -/
theorem apply_diff_rearranged_lines :
    let line (no qty : Json) := Json.obj [("no", no), ("qty", qty)]
    let int (n : Int) := Json.num (.ofInt n)
    let opts : DiffOptions := ⟨[("lines", "no")]⟩
    let a := Json.obj [("lines", .arr [line (int 1) (int 5), line (int 2) (int 5),
      line (int 3) (int 5)])]
    let b := Json.obj [("lines", .arr [line (int 4) (int 1), line (.str "3") (int 2),
      line (int 1) (int 5)])]
    apply a (diff a b opts) = .ok (.obj [("lines", .arr [line (int 1) (int 5),
      line (.str "3") (int 2), line (int 4) (int 1)])]) := by
  intro line int opts a b
  have hopts : opts.MildKeys := by decide
  refine (apply_diff_rearranged hopts (a := a) (b := b) ?_ ?_ ?_).trans ?_
  · exact ⟨by decide +kernel, by decide +kernel⟩
  · exact ⟨by decide +kernel, by decide +kernel⟩
  · decide +kernel
  · decide +kernel

/-- The changes between two regular values, made in index mode, turn the one into the other. -/
theorem edits_diffValue (hopts : opts.arrayKeys = []) {a b : Json} {pre : List PathSeg}
    (hpre : parsePath path = .ok pre) (hopen : ∀ xs, a = .arr xs → Opens path pre) (ha : a.Regular)
    (hb : b.Regular) : Edits pre (diffValue opts path a b) a b := by
  have hmild : opts.MildKeys := by simp [DiffOptions.MildKeys, hopts]
  have hdots : compared (dotless opts) opts path a a b = true :=
    compared_self (fun path aa ba => by simp [dotless, DiffOptions.keyFor, hopts]) ha.wf
  have hedits := (rebuilds_diffValue hmild hpre hopen (alike_refl path a) ha hb hdots
    (inPlace_self ha.wf path b)).edits
  rwa [rearrange_of_nil hopts] at hedits

/-- **Round trip.** In index mode, applying the diff of two regular values to the first gives
the second. -/
theorem apply_diff (hopts : opts.arrayKeys = []) {a b : Json} (ha : a.Regular) (hb : b.Regular) :
    apply a (diff a b opts) = .ok b :=
  (edits_diffValue hopts rfl (fun _ _ => opens_root) ha hb).apply_eq

/-- Arrays without a difference by position are the same, given that for their elements. -/
theorem eq_of_diffElems_eq_nil {i : Nat} {aa ba : List Json}
    (ih : ∀ av ∈ aa, ∀ bv ∈ ba, ∀ path, diffValue opts path av bv = [] → av = bv)
    (hlen : aa.length = ba.length) (h : diffElems opts path i aa ba = []) : aa = ba := by
  induction aa generalizing i ba with
  | nil => exact (length_eq_zero_iff.mp hlen.symm).symm
  | cons av aa iha =>
    cases ba with
    | nil => cases hlen
    | cons bv ba =>
      rw [diffElems, append_eq_nil_iff] at h
      have hhead := ih av mem_cons_self bv mem_cons_self _ h.1
      have hrest := iha (fun x hx y hy => ih x (mem_cons_of_mem av hx) y
        (mem_cons_of_mem bv hy)) (by simpa using hlen) h.2
      rw [hhead, hrest]

private theorem length_eq_of_arrayTail_eq_nil {aa ba : List Json} (h : arrayTail path aa ba = []) :
    aa.length = ba.length := by
  rw [arrayTail, append_eq_nil_iff, addedTail, removedTail] at h
  simp only [map_eq_nil_iff, reverse_eq_nil_iff, zipIdx_eq_nil_iff,
    drop_eq_nil_iff] at h
  omega

/-- Without array keys, no changes means equal values. -/
theorem eq_of_diffValue_eq_nil (hopts : opts.arrayKeys = []) {a b : Json} (ha : a.WF) (hb : b.WF)
    (h : diffValue opts path a b = []) : a = b := by
  induction a using Json.induction generalizing b path with
  | null | bool | num | str =>
    unfold diffValue at h
    split_ifs at h with heq
    exact heq
  | arr aa ih =>
    unfold diffValue at h
    split_ifs at h with heq
    · exact heq
    · cases b with
      | null | bool | num | str | obj => cases h
      | arr ba =>
        simp only [hopts, lookup_nil, Option.filter_none, append_eq_nil_iff] at h
        have hva := (Json.wf_arr_iff.mp ha).2
        have hvb := (Json.wf_arr_iff.mp hb).2
        exact congrArg Json.arr (eq_of_diffElems_eq_nil
          (fun av hav bv hbv path => ih av hav (hva av hav) (hvb bv hbv))
          (length_eq_of_arrayTail_eq_nil h.2) h.1)
  | obj am ih =>
    unfold diffValue at h
    split_ifs at h with heq
    · exact heq
    · cases b with
      | null | bool | num | str | arr => cases h
      | obj bm =>
        obtain ⟨hsa, hva⟩ := Json.wf_obj_iff.mp ha
        obtain ⟨hsb, hvb⟩ := Json.wf_obj_iff.mp hb
        dsimp only at h
        rw [diffMap_eq_flatMap hsa hsb, flatMap_eq_nil_iff] at h
        refine congrArg Json.obj (ext_lookup hsa hsb fun k => ?_)
        by_cases hk : k ∈ mergedKeys am bm
        · have hentry := h k hk
          cases hav : am.lookup k with
          | none =>
            cases hbv : bm.lookup k with
            | none => rfl
            | some bv => simp [hav, hbv, entryDiff] at hentry
          | some av =>
            cases hbv : bm.lookup k with
            | none => simp [hav, hbv, entryDiff] at hentry
            | some bv =>
              rw [hav, hbv, entryDiff] at hentry
              have hmem := mem_of_lookup hav
              exact congrArg some (ih _ hmem (hva _ hmem) (hvb _ (mem_of_lookup hbv)) hentry)
        · obtain ⟨hav, hbv⟩ := lookup_of_notMem_mergedKeys hk
          rw [hav, hbv]

theorem diff_eq_nil_iff (hopts : opts.arrayKeys = []) {a b : Json} (ha : a.WF) (hb : b.WF) :
    diff a b opts = [] ↔ a = b := by
  refine ⟨eq_of_diffValue_eq_nil hopts ha hb, ?_⟩
  rintro rfl
  exact diffValue_of_eq rfl

/-- **Index mode.** Without options, applying the diff of two regular values to the first gives
the second, and the diff is empty exactly if the values are equal. -/
theorem diff_without_options {a b : Json} (ha : a.Regular) (hb : b.Regular) :
    apply a (diff a b {}) = .ok b ∧ (diff a b {} = [] ↔ a = b) := by
  exact ⟨apply_diff rfl ha hb, diff_eq_nil_iff rfl ha.wf hb.wf⟩

/-- A key is dropped, an array grows inside an array that shrinks, and a number becomes an
object. -/
theorem diff_without_options_nested :
    let a := Json.obj [("drop", .null), ("rows", .arr [.arr [.null], .null, .bool true]),
      ("x", .num (.ofInt 7))]
    let b := Json.obj [("rows", .arr [.arr [.bool false, .str "new"], .str "s"]),
      ("x", .obj [("y", .arr [])])]
    apply a (diff a b {}) = .ok b ∧ diff a b {} ≠ [] := by
  intro a b
  have hreg : ∀ {j : Json}, j.WF → j.PlainKeys → j.Regular := fun hw hp => ⟨hw, hp⟩
  obtain ⟨happly, hnil⟩ := diff_without_options (a := a) (b := b)
    (hreg (by decide +kernel) (by decide +kernel)) (hreg (by decide +kernel) (by decide +kernel))
  exact ⟨happly, fun h => absurd (hnil.mp h) (by decide +kernel)⟩

end Letopis
