import Letopis.Diff.RoundTrip
import Letopis.ForMathlib.Except

/-!
# Two values that drift apart in order

A difference by key drops the order of the elements, so the value that a history replays to and
the value it was recorded for can come to differ in the order of keyed arrays. `alike` says that
they differ in nothing else. It is kept by applying the next difference, if no array changes over
between being compared by key and by position in a way that makes the order count (`steady`,
`alike_rearrange`), and by applying a client's changes to both, if these address positions only
where the two values have the same order (`touches`, `alike_apply`).
-/

namespace Letopis

open SortedAssoc List

variable {opts : DiffOptions}

/-! ### The next difference -/

/-- The order of the array does not come to count. If it loses its keys, the edited array has the
order of the compared one; if it gains them, no order inside its elements is dropped. -/
def steady (opts : DiffOptions) (path : String) (ra aa ba : List Json) : Bool :=
  inPlace opts path ra aa ba &&
    ((opts.keyFor path ba ba).isNone || (opts.keyFor path aa ba).isSome ||
      rearrangeElems opts path 0 ra ba = ba)

variable {aa ra ba : List Json} {path : String}

private theorem keyOrder_perm {kf : String} {bs : List Json} (ha : (aa.map (elemKey kf)).Nodup)
    (hb : (bs.map (elemKey kf)).Nodup) : (keyOrder kf aa bs).Perm bs := by
  have hknown : (aa.filterMap fun el => sameKey kf el bs).Nodup := by
    refine (pairwise_map.mp ha).filterMap _ fun x y hne b hb b' hb' heq => hne ?_
    rw [← (mem_of_sameKey hb).2, ← (mem_of_sameKey hb').2, heq]
  have hmem : ∀ b, b ∈ aa.filterMap (fun el => sameKey kf el bs) ↔
      b ∈ bs ∧ elemKey kf b ∈ aa.map (elemKey kf) := by
    intro b
    rw [mem_filterMap]
    constructor
    · rintro ⟨el, hel, hsame⟩
      obtain ⟨hb, hkey⟩ := mem_of_sameKey hsame
      exact ⟨hb, hkey ▸ mem_map_of_mem hel⟩
    · rintro ⟨hb', hkey⟩
      obtain ⟨el, hel, hkey⟩ := mem_map.mp hkey
      exact ⟨el, hel, sameKey_eq_some hb hb' hkey.symm⟩
  refine (perm_ext_iff_of_nodup (nodup_append.mpr ⟨hknown, hb.of_map.filter _, ?_⟩)
    hb.of_map).mpr fun b => ?_
  · rintro b hb' c hc rfl
    exact of_decide_eq_true (mem_filter.mp hc).2 ((hmem b).mp hb').2
  · rw [mem_append, hmem, mem_filter, decide_eq_true_iff]
    tauto

private theorem getElem?_rearrangeElems {i : Nat} (n : Nat) :
    (rearrangeElems opts path i ra ba)[n]? = ba[n]?.map fun bv =>
      match ra[n]? with
      | some rv => rearrange opts (indexPath path (i + n)) rv bv
      | none => bv := by
  induction ba generalizing ra i n with
  | nil => cases ra <;> simp [rearrangeElems]
  | cons bv ba ih =>
    cases ra with
    | nil => simp [rearrangeElems]
    | cons rv ra =>
      rw [rearrangeElems]
      cases n with
      | zero => simp
      | succ n => simp [ih, Nat.add_assoc, Nat.add_comm 1]

private theorem length_rearrangeElems {i : Nat} :
    (rearrangeElems opts path i ra ba).length = ba.length := by
  induction ba generalizing ra i with
  | nil => cases ra <;> rfl
  | cons bv ba ih =>
    cases ra with
    | nil => rfl
    | cons rv ra => rw [rearrangeElems, length_cons, ih, length_cons]

private theorem alike_keyOrder {kf : String} (hkf : opts.keyFor path aa ba = some kf)
    (hr : alike opts path (.arr ra) (.arr aa) = true)
    (hmatch : ∀ av ∈ aa, ∀ rv bv, sameKey kf av ra = some rv → sameKey kf av ba = some bv →
      alike opts (elemPath path kf av) (rearrange opts (elemPath path kf av) rv bv) bv = true) :
    alike opts path (.arr (keyOrder kf ra (rearrangeKeyed opts path kf ra ba))) (.arr ba) =
      true := by
  obtain ⟨hlook, haa, hba⟩ := keyFor_eq_some.mp hkf
  obtain ⟨hra, hperm, -⟩ := alike_arr_keyed hlook haa hr
  have hkeys : (rearrangeKeyed opts path kf ra ba).map (elemKey kf) = ba.map (elemKey kf) := by
    rw [rearrangeKeyed_eq_map, map_map]
    exact map_congr_left fun bv _ => elemKey_rearrangeElem opts path kf ra bv
  have horder : (keyOrder kf ra (rearrangeKeyed opts path kf ra ba)).Perm
      (rearrangeKeyed opts path kf ra ba) :=
    keyOrder_perm (keyable_iff.mp hra).2 (hkeys ▸ (keyable_iff.mp hba).2)
  simp only [alike, keyFor_eq_some.mpr ⟨hlook, hba, hba⟩, Bool.and_eq_true, decide_eq_true_eq,
    alikeKeyed_iff]
  refine ⟨by rw [horder.length_eq, rearrangeKeyed_eq_map, length_map], fun bv hbv => ?_⟩
  refine ⟨rearrangeElem opts path kf ra bv, horder.mem_iff.mpr ?_,
    elemKey_rearrangeElem opts path kf ra bv, ?_⟩
  · rw [rearrangeKeyed_eq_map]
    exact mem_map_of_mem hbv
  · unfold rearrangeElem
    split
    · rename_i rv hrv
      obtain ⟨hmem, hkey⟩ := mem_of_sameKey hrv
      obtain ⟨av, hav, hkeya⟩ := mem_map.mp (hperm.subset (mem_map_of_mem hmem))
      have hpath : elemPath path kf bv = elemPath path kf av := by
        simp only [elemPath, hkeya, hkey]
      rw [hpath]
      exact hmatch av hav rv bv (sameKey_eq_some (keyable_iff.mp hra).2 hmem hkeya.symm)
        (sameKey_eq_some (keyable_iff.mp hba).2 hbv (hkey.symm.trans hkeya.symm))
    · exact alike_refl _ bv

private theorem alike_rearrangeElems (hnone : opts.keyFor path ba ba = none)
    (hmatch : ∀ n rv bv, ra[n]? = some rv → ba[n]? = some bv →
      alike opts (indexPath path n) (rearrange opts (indexPath path n) rv bv) bv = true) :
    alike opts path (.arr (rearrangeElems opts path 0 ra ba)) (.arr ba) = true := by
  simp only [alike, hnone, alikeElems_iff, Nat.zero_add]
  refine ⟨length_rearrangeElems, fun n x bv hx hbv => ?_⟩
  rw [getElem?_rearrangeElems, hbv, Option.map_some, Option.some.injEq, Nat.zero_add] at hx
  subst hx
  split
  · rename_i rv hrv
    exact hmatch n rv bv hrv hbv
  · exact alike_refl _ bv

/-- **The next difference keeps values alike.** -/
theorem alike_rearrange {r a b : Json} (hb : b.WF) (hr : alike opts path r a = true)
    (hsteady : compared (steady opts) opts path r a b = true) :
    alike opts path (rearrange opts path r b) b = true := by
  induction a using Json.induction generalizing path r b with
  | null | bool | num | str =>
    cases r with
    | arr | obj => simp [alike] at hr
    | null | bool | num | str => cases b <;> exact alike_refl path _
  | arr aa ih =>
    cases r with
    | null | bool | num | str | obj => simp [alike] at hr
    | arr ra =>
      cases b with
      | null | bool | num | str | obj => exact alike_refl path _
      | arr ba =>
        have hba := (Json.wf_arr_iff.mp hb).2
        rw [compared, Bool.and_eq_true] at hsteady
        obtain ⟨hhere, hbelow⟩ := hsteady
        rw [rearrange, keyFor_of_alike hr]
        cases hkf : opts.keyFor path aa ba with
        | some kf =>
          simp only [hkf, comparedKeyed_iff] at hbelow
          obtain ⟨hlook, haa, -⟩ := keyFor_eq_some.mp hkf
          obtain ⟨-, -, hmatch⟩ := alike_arr_keyed hlook haa hr
          refine alike_keyOrder hkf hr fun av hav rv bv hrv hbv => ?_
          obtain ⟨hmem, hkey⟩ := mem_of_sameKey hrv
          exact ih av hav (hba bv (mem_of_sameKey hbv).1) (hmatch rv hmem av hav hkey)
            (hbelow av hav rv bv hrv hbv)
        | none =>
          simp only [hkf, comparedElems_iff, Nat.zero_add] at hbelow
          simp only [steady, hkf, Option.isSome_none, Bool.or_false, Bool.and_eq_true,
            Bool.or_eq_true, Option.isNone_iff_eq_none, decide_eq_true_eq] at hhere
          obtain ⟨hplace, hexact⟩ := hhere
          obtain ⟨hlen, helems⟩ := elems_of_inPlace hr hkf hplace
          rcases hexact with hnone | hexact
          · refine alike_rearrangeElems hnone fun n rv bv hrv hbv => ?_
            obtain ⟨av, hav⟩ : ∃ av, aa[n]? = some av :=
              ⟨_, getElem?_eq_getElem (hlen ▸ (List.getElem?_eq_some_iff.mp hrv).1)⟩
            exact ih av (mem_of_getElem? hav) (hba bv (mem_of_getElem? hbv))
              (helems n rv av hrv hav) (hbelow n rv av bv hrv hav hbv)
          · rw [hexact]
            exact alike_refl path _
  | obj am ih =>
    cases r with
    | null | bool | num | str | arr => simp [alike] at hr
    | obj rm =>
      cases b with
      | null | bool | num | str | arr => exact alike_refl path _
      | obj bm =>
        obtain ⟨hs, hbm⟩ := Json.wf_obj_iff.mp hb
        rw [alike] at hr
        rw [compared, comparedFields_iff] at hsteady
        rw [rearrange, alike, alikeFields_iff, rearrangeFields_eq_map,
          forall₂_map_left_iff, forall₂_same]
        refine fun p hp => ⟨rfl, ?_⟩
        simp only [rearrangeEntry]
        obtain ⟨hrv, -⟩ | ⟨rv, av, hrv, hav, hval⟩ := lookup_of_alikeFields hr p.1
        · rw [hrv]
          exact alike_refl _ p.2
        · simp only [hrv]
          have hmem := mem_of_lookup hav
          exact ih (p.1, av) hmem (hbm p hp) hval
            (hsteady (p.1, av) hmem rv p.2 hrv (lookup_of_mem hs hp))

/-- No value under a configured key field contains a dot. -/
def DiffOptions.Dotless (opts : DiffOptions) (j : Json) : Prop :=
  j.every (fun _ => true) (fun kvs => ∀ p ∈ opts.arrayKeys,
    '.' ∉ ((elemKey p.2 (.obj kvs)).getD "").toList) = true

instance (opts : DiffOptions) (j : Json) : Decidable (opts.Dotless j) :=
  inferInstanceAs (Decidable (_ = true))

private theorem dotless_of_dotless (ha : opts.Dotless (.arr aa)) (hb : opts.Dotless (.arr ba)) :
    dotless opts path ra aa ba = true := by
  have helem : ∀ {kf : String}, opts.arrayKeys.lookup path = some kf → ∀ el, opts.Dotless el →
      '.' ∉ ((elemKey kf el).getD "").toList := by
    intro kf hkf el hel
    cases el with
    | obj kvs =>
      have hall := of_decide_eq_true (Json.every_obj_iff.mp hel).1
      exact hall (path, kf) (mem_of_lookup hkf)
    | null | bool | num | str | arr => simp [elemKey]
  unfold dotless
  split
  · rename_i kf hkf
    rw [all_append, Bool.and_eq_true, all_eq_true, all_eq_true]
    have hlook := (keyFor_eq_some.mp hkf).1
    exact ⟨fun el hel => decide_eq_true (helem hlook el ((Json.every_arr_iff.mp ha).2 el hel)),
      fun el hel => decide_eq_true (helem hlook el ((Json.every_arr_iff.mp hb).2 el hel))⟩
  · rfl

/-- **The next difference applies.** The changes between two values apply to a value that is alike
to the first, and give one that is alike to the second. -/
theorem alike_apply_diff (hopts : opts.MildKeys) {r a b : Json} (ha : a.Regular) (hb : b.Regular)
    (hda : opts.Dotless a) (hdb : opts.Dotless b) (hr : alike opts "" r a = true)
    (hsteady : compared (steady opts) opts "" r a b = true) :
    ∃ r', apply r (diff a b opts) = .ok r' ∧ alike opts "" r' b = true := by
  have hdots : compared (dotless opts) opts "" r a b = true :=
    compared_imp (fun xs h => (Json.every_arr_iff.mp h).2)
      (fun kvs h => (Json.every_obj_iff.mp h).2)
      (fun _ _ _ _ haa hba _ => dotless_of_dotless haa hba) hda hdb hsteady
  have hplace : compared (inPlace opts) opts "" r a b = true := by
    refine compared_imp (D := fun _ => True) (fun _ _ _ _ => trivial) (fun _ _ _ _ => trivial)
      (fun _ _ _ _ _ _ h => ?_) trivial trivial hsteady
    exact (Bool.and_eq_true _ _ ▸ h).1
  exact ⟨rearrange opts "" r b, (rebuilds_diffValue hopts rfl (fun _ _ => opens_root) hr ha hb
    hdots hplace).edits.apply_eq, alike_rearrange hb.wf hr hsteady⟩

/-! ### A client's changes -/

/-- The change addresses positions of an array only where both values have the same order: an
array with a configured key is the same in both, and so are the elements behind a position where
one is added or removed. -/
def touches (opts : DiffOptions) (ch : Change) : List PathSeg → String → Json → Json → Bool
  | .key name :: rest, path, .obj rm, .obj am =>
    match rm.lookup name, am.lookup name with
    | some rv, some av => touches opts ch rest (childPath path name) rv av
    | _, _ => true
  | .index i :: rest, path, .arr ra, .arr aa =>
    if (opts.arrayKeys.lookup path).isSome then ra = aa
    else if rest.isEmpty then ch.op = .change || ra.drop i.toNat = aa.drop i.toNat
    else
      match ra[i.toNat]?, aa[i.toNat]? with
      | some rv, some av => touches opts ch rest (indexPath path i.toNat) rv av
      | _, _ => true
  | .keyed _ _ :: _, _, r, a => r = a
  | _, _, _, _ => true

/-- Every change of a list does, on the values that the ones before it have left. -/
def touchesAll (opts : DiffOptions) : Json → Json → List Change → Bool
  | _, _, [] => true
  | r, a, ch :: chs =>
    (match parsePath ch.path with
      | .ok segs => touches opts ch segs "" r a
      | .error _ => true) &&
      match applyOneChange r ch, applyOneChange a ch with
      | .ok r, .ok a => touchesAll opts r a chs
      | _, _ => true

section Entries

variable {path : String} {rm am : Fields}

private theorem alikeFields_insert (h : alikeFields opts path rm am = true) {k : String}
    {rv av : Json} (hv : alike opts (childPath path k) rv av = true) :
    alikeFields opts path (SortedAssoc.insert k rv rm) (SortedAssoc.insert k av am) = true := by
  rw [alikeFields_iff] at h ⊢
  induction h with
  | nil => exact .cons ⟨rfl, hv⟩ .nil
  | @cons p q rm am hhead htail ih =>
    rw [SortedAssoc.insert, SortedAssoc.insert, hhead.1]
    split_ifs
    · exact .cons ⟨rfl, hv⟩ (.cons ⟨rfl, hhead.2⟩ htail)
    · exact .cons ⟨rfl, hv⟩ htail
    · exact .cons ⟨rfl, hhead.2⟩ ih

private theorem alikeFields_erase (h : alikeFields opts path rm am = true) (k : String) :
    alikeFields opts path (erase k rm) (erase k am) = true := by
  rw [alikeFields_iff] at h ⊢
  induction h with
  | nil => exact .nil
  | @cons p q rm am hhead htail ih =>
    rw [erase, erase, filter_cons, filter_cons, hhead.1]
    split_ifs
    · exact .cons hhead ih
    · exact ih

end Entries

section Elements

variable {path : String} {ra aa : List Json} {i : Nat}

private theorem alike_arr_iff (hnone : opts.arrayKeys.lookup path = none) :
    alike opts path (.arr ra) (.arr aa) = true ↔ ra.length = aa.length ∧
      ∀ n x y, ra[n]? = some x → aa[n]? = some y → alike opts (indexPath path n) x y = true := by
  simp [alike, DiffOptions.keyFor, hnone, alikeElems_iff]

private theorem alike_set (hnone : opts.arrayKeys.lookup path = none)
    (h : alike opts path (.arr ra) (.arr aa) = true) {rv av : Json}
    (hv : alike opts (indexPath path i) rv av = true) :
    alike opts path (.arr (ra.set i rv)) (.arr (aa.set i av)) = true := by
  rw [alike_arr_iff hnone] at h ⊢
  refine ⟨by rw [length_set, length_set, h.1], fun n x y hx hy => ?_⟩
  rw [getElem?_set] at hx hy
  by_cases hn : i = n
  · subst hn
    rw [if_pos rfl] at hx hy
    split_ifs at hx hy
    cases hx
    cases hy
    exact hv
  · rw [if_neg hn] at hx hy
    exact h.2 n x y hx hy

private theorem getElem?_of_drop (hdrop : ra.drop i = aa.drop i) {n : Nat} (hn : i ≤ n) :
    ra[n]? = aa[n]? := by
  have heq := congrArg (fun l : List Json => l[n - i]?) hdrop
  simpa only [getElem?_drop, Nat.add_sub_cancel' hn] using heq

private theorem alike_insertIdx (hnone : opts.arrayKeys.lookup path = none)
    (h : alike opts path (.arr ra) (.arr aa) = true) (hdrop : ra.drop i = aa.drop i) (v : Json) :
    alike opts path (.arr (ra.insertIdx i v)) (.arr (aa.insertIdx i v)) = true := by
  rw [alike_arr_iff hnone] at h ⊢
  obtain ⟨hlen, helems⟩ := h
  refine ⟨by rw [length_insertIdx, length_insertIdx, hlen], fun n x y hx hy => ?_⟩
  rw [getElem?_insertIdx] at hx hy
  by_cases hlt : n < i
  · rw [if_pos hlt] at hx hy
    exact helems n x y hx hy
  · -- from the position on the two arrays are the same
    have hsame : ra[n - 1]? = aa[n - 1]? ∨ n = i := by
      by_cases hn : n = i
      · exact .inr hn
      · exact .inl (getElem?_of_drop hdrop (by omega))
    rw [if_neg hlt] at hx hy
    have heq : some x = some y := by
      rw [← hx, ← hy, hlen]
      rcases hsame with hsame | hn
      · rw [hsame]
      · rw [if_pos hn, if_pos hn]
    cases heq
    exact alike_refl _ x

private theorem alike_eraseIdx (hnone : opts.arrayKeys.lookup path = none)
    (h : alike opts path (.arr ra) (.arr aa) = true) (hdrop : ra.drop i = aa.drop i) :
    alike opts path (.arr (ra.eraseIdx i)) (.arr (aa.eraseIdx i)) = true := by
  rw [alike_arr_iff hnone] at h ⊢
  obtain ⟨hlen, helems⟩ := h
  refine ⟨by rw [length_eraseIdx, length_eraseIdx, hlen], fun n x y hx hy => ?_⟩
  rw [getElem?_eraseIdx] at hx hy
  by_cases hlt : n < i
  · rw [if_pos hlt] at hx hy
    exact helems n x y hx hy
  · rw [if_neg hlt] at hx hy
    rw [getElem?_of_drop hdrop (by omega), hy] at hx
    cases hx
    exact alike_refl _ x

end Elements

private theorem lookup_alike {rm am : Fields} (h : alikeFields opts path rm am = true) {k : String}
    {rv av : Json} (hrv : rm.lookup k = some rv) (hav : am.lookup k = some av) :
    alike opts (childPath path k) rv av = true := by
  obtain ⟨hnone, -⟩ | ⟨rv', av', hrv', hav', hval⟩ := lookup_of_alikeFields h k
  · cases hrv.symm.trans hnone
  · cases Option.some.inj (hrv.symm.trans hrv')
    cases Option.some.inj (hav.symm.trans hav')
    exact hval

private theorem alike_applyEntry {ch : Change} {name : String} {rm am : Fields}
    {rest : List PathSeg} {entry : Option Json} (hr : alikeFields opts path rm am = true)
    (ha : applyEntry ch (am.lookup name) rest = .ok entry)
    (hbelow : ∀ rv av, rm.lookup name = some rv → am.lookup name = some av → ∀ w,
      applyStep ch av rest = .ok w →
        ∃ r', applyStep ch rv rest = .ok r' ∧ alike opts (childPath path name) r' w = true) :
    ∃ entry', applyEntry ch (rm.lookup name) rest = .ok entry' ∧
      alikeFields opts path (setEntry name entry' rm) (setEntry name entry am) = true := by
  cases rest with
  | nil =>
    have hiff : (rm.lookup name).isNone = (am.lookup name).isNone := by
      obtain ⟨hrv, hav⟩ | ⟨rv, av, hrv, hav, -⟩ := lookup_of_alikeFields hr name
      · rw [hrv, hav]
      · rw [hrv, hav]
        rfl
    refine ⟨entry, by rw [← ha]; simp only [applyEntry, hiff], ?_⟩
    simp only [applyEntry] at ha
    split at ha
    · cases ha
      exact alikeFields_insert hr (alike_refl _ _)
    · cases ha
      exact alikeFields_insert hr (alike_refl _ _)
    · split_ifs at ha
      cases ha
      exact alikeFields_erase hr name
  | cons s rest =>
    obtain ⟨hrv, hav⟩ | ⟨rv, av, hrv, hav, -⟩ := lookup_of_alikeFields hr name
    · rw [hav] at ha
      cases ha
    · have hinto (x : Json) : applyEntry ch (some x) (s :: rest) =
          (applyStep ch x (s :: rest)).map some := rfl
      rw [hav, hinto] at ha
      obtain ⟨w, hw, rfl⟩ := Except.map_eq_ok_iff.mp ha
      obtain ⟨r', hr', hval⟩ := hbelow rv av hrv hav w hw
      exact ⟨some r', by rw [hrv, hinto, hr']; rfl, alikeFields_insert hr hval⟩

private theorem alike_applyElems {ch : Change} {ys : List Json} {i : Int} {rest : List PathSeg}
    (hnone : opts.arrayKeys.lookup path = none) (hr : alike opts path (.arr ra) (.arr aa) = true)
    (hdrop : rest = [] → ch.op ≠ .change → ra.drop i.toNat = aa.drop i.toNat)
    (ha : applyElems ch aa i rest = .ok ys)
    (hbelow : ∀ rv av, ra[i.toNat]? = some rv → aa[i.toNat]? = some av → ∀ w,
      applyStep ch av rest = .ok w → ∃ r', applyStep ch rv rest = .ok r' ∧
        alike opts (indexPath path i.toNat) r' w = true) :
    ∃ xs, applyElems ch ra i rest = .ok xs ∧ alike opts path (.arr xs) (.arr ys) = true := by
  have hlen := ((alike_arr_iff hnone).mp hr).1
  cases rest with
  | nil =>
    simp only [applyElems] at ha ⊢
    split at ha <;> rename_i hop <;> split_ifs at ha with hin
    · cases ha
      exact ⟨_, if_neg (by rwa [hlen]), alike_insertIdx hnone hr (hdrop rfl (by simp [hop])) _⟩
    · cases ha
      exact ⟨_, if_neg (by rwa [hlen]), alike_set hnone hr (alike_refl _ _)⟩
    · cases ha
      exact ⟨_, if_neg (by rwa [hlen]), alike_eraseIdx hnone hr (hdrop rfl (by simp [hop]))⟩
  | cons s rest =>
    simp only [applyElems] at ha ⊢
    split_ifs at ha with hin
    obtain ⟨w, hw, rfl⟩ := Except.map_eq_ok_iff.mp ha
    have hi : i.toNat < aa.length := by omega
    obtain ⟨av, hav⟩ : ∃ av, aa[i.toNat]? = some av := ⟨_, getElem?_eq_getElem hi⟩
    obtain ⟨rv, hrv⟩ : ∃ rv, ra[i.toNat]? = some rv :=
      ⟨_, getElem?_eq_getElem (hlen.symm ▸ hi)⟩
    rw [getD_eq_getElem?_getD, hav, Option.getD_some] at hw
    obtain ⟨r', hr', hval⟩ := hbelow rv av hrv hav w hw
    refine ⟨ra.set i.toNat r', ?_, alike_set hnone hr hval⟩
    rw [if_neg (by rwa [hlen]), getD_eq_getElem?_getD, hrv, Option.getD_some, hr']
    rfl

/-- **One change keeps values alike**, and it applies to both. -/
theorem alike_applyStep {ch : Change} {segs : List PathSeg} {r a a' : Json}
    (hr : alike opts path r a = true) (ht : touches opts ch segs path r a = true)
    (ha : applyStep ch a segs = .ok a') :
    ∃ r', applyStep ch r segs = .ok r' ∧ alike opts path r' a' = true := by
  induction segs generalizing path r a a' with
  | nil => cases ha
  | cons s rest ih =>
    cases s with
    | key name =>
      cases a with
      | null | bool | num | str | arr => simp [applyStep] at ha
      | obj am =>
        cases r with
        | null | bool | num | str | arr => simp [alike] at hr
        | obj rm =>
          rw [alike] at hr
          rw [applyStep_obj] at ha
          obtain ⟨entry, hentry, rfl⟩ := Except.map_eq_ok_iff.mp ha
          obtain ⟨entry', hentry', hset⟩ := alike_applyEntry hr hentry fun rv av hrv hav w hw =>
            ih (lookup_alike hr hrv hav) (by simpa [touches, hrv, hav] using ht) hw
          exact ⟨_, by rw [applyStep_obj, hentry']; rfl, by rw [alike]; exact hset⟩
    | index i =>
      cases a with
      | null | bool | num | str | obj => simp [applyStep] at ha
      | arr aa =>
        cases r with
        | null | bool | num | str | obj => simp [alike] at hr
        | arr ra =>
          cases hconf : opts.arrayKeys.lookup path with
          | some kf =>
            obtain rfl : ra = aa := by simpa [touches, hconf] using ht
            exact ⟨a', ha, alike_refl path a'⟩
          | none =>
            rw [applyStep_arr] at ha
            obtain ⟨ys, hys, rfl⟩ := Except.map_eq_ok_iff.mp ha
            have helems := ((alike_arr_iff hconf).mp hr).2
            obtain ⟨xs, hxs, hval⟩ := alike_applyElems hconf hr
              (fun hrest hop => by subst hrest; simpa [touches, hconf, hop] using ht) hys
              (fun rv av hrv hav w hw => by
                cases rest with
                | nil => cases hw
                | cons s rest =>
                  exact ih (helems _ rv av hrv hav)
                    (by simpa [touches, hconf, hrv, hav] using ht) hw)
            exact ⟨.arr xs, by rw [applyStep_arr, hxs]; rfl, hval⟩
    | keyed kf kv =>
      obtain rfl : r = a := by simpa [touches] using ht
      exact ⟨a', ha, alike_refl path a'⟩

private theorem alike_applyOneChange {ch : Change} {r a a' : Json} (hr : alike opts "" r a = true)
    (ht : ∀ segs, parsePath ch.path = .ok segs → touches opts ch segs "" r a = true)
    (ha : applyOneChange a ch = .ok a') :
    ∃ r', applyOneChange r ch = .ok r' ∧ alike opts "" r' a' = true := by
  rw [applyOneChange] at ha ⊢
  cases hparse : parsePath ch.path with
  | error e => simp [hparse] at ha
  | ok segs =>
    simp only [hparse] at ha ⊢
    cases segs with
    | nil => exact ⟨a', ha, alike_refl "" a'⟩
    | cons s rest => exact alike_applyStep hr (ht _ hparse) ha

/-- **A client's changes keep values alike.** A list that applies to one of two alike values, and
addresses positions only where they have the same order, applies to the other, with alike
results. -/
theorem alike_apply {chs : List Change} {r a a' : Json} (hr : alike opts "" r a = true)
    (ht : touchesAll opts r a chs = true) (ha : apply a chs = .ok a') :
    ∃ r', apply r chs = .ok r' ∧ alike opts "" r' a' = true := by
  induction chs generalizing r a with
  | nil =>
    cases ha
    exact ⟨r, rfl, hr⟩
  | cons ch chs ih =>
    rw [touchesAll, Bool.and_eq_true] at ht
    rw [apply] at ha
    cases hone : applyOneChange a ch with
    | error e => simp [hone] at ha
    | ok a₁ =>
      simp only [hone] at ha
      obtain ⟨r₁, hr₁, hval⟩ := alike_applyOneChange hr
        (fun segs hsegs => by simpa [hsegs] using ht.1) hone
      obtain ⟨r', hr', hval'⟩ := ih hval (by simpa [hr₁, hone] using ht.2) ha
      exact ⟨r', by rw [apply, hr₁]; exact hr', hval'⟩

end Letopis
