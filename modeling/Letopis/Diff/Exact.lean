import Letopis.Diff.RoundTrip

/-!
# What a change says is so

A change is read as a statement about the two values that were compared: its path leads to `old` in
the first one and to `new` in the second one, and where a part was added or removed its path leads
nowhere in the other value. `apply` never looks at `old`, so the round trip says nothing about this.

Every change of a difference is such a statement (`diff_exact`), and no two of them are about the
same part or about a part of the other one's. Both are shown along the comparison: what two values
have in common is compared part by part, and different parts begin with different segments
(`AuditParts.flatMap`).
-/

namespace Letopis

open SortedAssoc List

/-! ### Following a path -/

/-- What a path segment leads to. -/
def Json.descend : Json → PathSeg → Option Json
  | .obj m, .key name => m.lookup name
  | .arr xs, .index i => if 0 ≤ i then xs[i.toNat]? else none
  | .arr xs, .keyed keyField keyVal => (indexOfKey xs keyField keyVal).bind fun n => xs[n]?
  | _, _ => none

/-- The value that a path leads to. -/
def Json.resolve (v : Json) (segs : List PathSeg) : Option Json := segs.foldlM Json.descend v

@[simp] theorem Json.resolve_nil (v : Json) : v.resolve [] = some v := rfl

@[simp]
theorem Json.resolve_cons (v : Json) (s : PathSeg) (rest : List PathSeg) :
    v.resolve (s :: rest) = (v.descend s).bind fun w => w.resolve rest := rfl

theorem Json.descend_index (xs : List Json) (n : Nat) :
    (Json.arr xs).descend (.index n) = xs[n]? := by
  rw [Json.descend, if_pos (Int.natCast_nonneg n), Int.toNat_natCast]

private theorem Json.descend_keyed {kf ks : String} {el : Json} (hks : elemKey kf el = some ks)
    (xs : List Json) : (Json.arr xs).descend (.keyed kf ks) = sameKey kf el xs := by
  rw [Json.descend, indexOfKey, ← find?_eq_bind_findIdx?_getElem?, sameKey, hks]

/-- What a change says of two values, read relative to them. -/
def Change.Exact (ch : Change) (a b : Json) (rel : List PathSeg) : Prop :=
  match ch.op with
  | .add => a.resolve rel = none ∧ b.resolve rel = some ch.new
  | .change => a.resolve rel = some ch.old ∧ b.resolve rel = some ch.new
  | .remove => a.resolve rel = some ch.old ∧ b.resolve rel = none

theorem Change.Exact.cons {ch : Change} {a b av bv : Json} {s : PathSeg} {rel : List PathSeg}
    (ha : a.descend s = some av) (hb : b.descend s = some bv) (h : ch.Exact av bv rel) :
    ch.Exact a b (s :: rel) := by
  simpa only [Change.Exact, Json.resolve_cons, ha, hb, Option.bind_some] using h

/-- Neither path is the other one or leads on from it. -/
def Change.Apart (c c' : Change) : Prop :=
  ∀ p p', parsePath c.path = .ok p → parsePath c'.path = .ok p' → ¬p <+: p' ∧ ¬p' <+: p

private theorem Change.apart_of_ne {c c' : Change} {pre rest rest' : List PathSeg} {s s' : PathSeg}
    (h : parsePath c.path = .ok (pre ++ s :: rest))
    (h' : parsePath c'.path = .ok (pre ++ s' :: rest')) (hne : s ≠ s') : c.Apart c' := by
  intro p p' hp hp'
  cases Except.ok.inj (h.symm.trans hp)
  cases Except.ok.inj (h'.symm.trans hp')
  rw [prefix_append_right_inj, prefix_append_right_inj, cons_prefix_cons,
    cons_prefix_cons]
  exact ⟨fun hpre => hne hpre.1, fun hpre => hne hpre.1.symm⟩

/-! ### Changes of a value and changes of its parts -/

/-- The changes below a place say what is so of two values, and are about different parts. -/
structure Audit (pre : List PathSeg) (chs : List Change) (a b : Json) : Prop where
  exact : ∀ ch ∈ chs, ∃ rel, parsePath ch.path = .ok (pre ++ rel) ∧ ch.Exact a b rel
  apart : chs.Pairwise Change.Apart

/-- The same of changes that go into the values, by one of these segments. -/
structure AuditParts (pre : List PathSeg) (heads : PathSeg → Prop) (chs : List Change)
    (a b : Json) : Prop where
  exact : ∀ ch ∈ chs, ∃ s rest, heads s ∧ parsePath ch.path = .ok (pre ++ s :: rest) ∧
    ch.Exact a b (s :: rest)
  apart : chs.Pairwise Change.Apart

section

variable {path : String} {pre : List PathSeg} {a b : Json} {chs chs' : List Change}

theorem Audit.nil : Audit pre [] a b :=
  ⟨fun _ hch => absurd hch not_mem_nil, List.Pairwise.nil⟩

variable {heads : PathSeg → Prop}

theorem AuditParts.nil : AuditParts pre heads [] a b :=
  ⟨fun _ hch => absurd hch not_mem_nil, List.Pairwise.nil⟩

theorem AuditParts.audit (h : AuditParts pre heads chs a b) : Audit pre chs a b where
  exact := by
    intro ch hch
    obtain ⟨s, rest, -, hpath, hexact⟩ := h.exact ch hch
    exact ⟨s :: rest, hpath, hexact⟩
  apart := h.apart

theorem AuditParts.single {ch : Change} {s : PathSeg} (hpath : parsePath ch.path = .ok (pre ++ [s]))
    (h : ch.Exact a b [s]) : AuditParts pre (· = s) [ch] a b where
  exact := by
    intro c hc
    rw [mem_singleton.mp hc]
    exact ⟨s, [], rfl, hpath, h⟩
  apart := pairwise_singleton _ _

theorem AuditParts.added {p : String} {s : PathSeg} {bv : Json}
    (hp : parsePath p = .ok (pre ++ [s])) (ha : a.descend s = none) (hb : b.descend s = some bv) :
    AuditParts pre (· = s) [.addAt p bv] a b :=
  .single hp ⟨by simp [ha], by simp [hb, Change.addAt]⟩

theorem AuditParts.removed {p : String} {s : PathSeg} {av : Json}
    (hp : parsePath p = .ok (pre ++ [s])) (ha : a.descend s = some av) (hb : b.descend s = none) :
    AuditParts pre (· = s) [.removeAt p av] a b :=
  .single hp ⟨by simp [ha, Change.removeAt], by simp [hb]⟩

theorem Audit.replace (hpre : parsePath path = .ok pre) :
    Audit pre [⟨path, .change, a, b⟩] a b where
  exact := by
    intro c hc
    rw [mem_singleton.mp hc]
    exact ⟨[], by simpa using hpre, rfl, rfl⟩
  apart := pairwise_singleton _ _

theorem Audit.below {s : PathSeg} {av bv : Json} (ha : a.descend s = some av)
    (hb : b.descend s = some bv) (h : Audit (pre ++ [s]) chs av bv) :
    AuditParts pre (· = s) chs a b where
  exact := by
    intro ch hch
    obtain ⟨rel, hpath, hexact⟩ := h.exact ch hch
    exact ⟨s, rel, rfl, by simpa using hpath, hexact.cons ha hb⟩
  apart := h.apart

theorem AuditParts.append {heads' : PathSeg → Prop} (h : AuditParts pre heads chs a b)
    (h' : AuditParts pre heads' chs' a b) (hdisj : ∀ s, heads s → ¬heads' s) :
    AuditParts pre (fun s => heads s ∨ heads' s) (chs ++ chs') a b where
  exact := by
    intro ch hch
    rcases mem_append.mp hch with hch | hch
    · obtain ⟨s, rest, hs, hrest⟩ := h.exact ch hch
      exact ⟨s, rest, .inl hs, hrest⟩
    · obtain ⟨s, rest, hs, hrest⟩ := h'.exact ch hch
      exact ⟨s, rest, .inr hs, hrest⟩
  apart := by
    refine pairwise_append.mpr ⟨h.apart, h'.apart, fun c hc c' hc' => ?_⟩
    obtain ⟨s, rest, hs, hpath, -⟩ := h.exact c hc
    obtain ⟨s', rest', hs', hpath', -⟩ := h'.exact c' hc'
    refine Change.apart_of_ne hpath hpath' ?_
    rintro rfl
    exact hdisj s hs hs'

theorem AuditParts.mono {heads' : PathSeg → Prop} (h : AuditParts pre heads chs a b)
    (hle : ∀ s, heads s → heads' s) : AuditParts pre heads' chs a b where
  exact := by
    intro ch hch
    obtain ⟨s, rest, hs, hrest⟩ := h.exact ch hch
    exact ⟨s, rest, hle s hs, hrest⟩
  apart := h.apart

theorem AuditParts.flatMap {ι : Type} {xs : List ι} (seg : ι → PathSeg) {f : ι → List Change}
    (hnodup : (xs.map seg).Nodup) (h : ∀ x ∈ xs, AuditParts pre (· = seg x) (f x) a b) :
    AuditParts pre (· ∈ xs.map seg) (xs.flatMap f) a b := by
  induction xs with
  | nil => exact .nil
  | cons x xs ih =>
    obtain ⟨hx, hxs⟩ := forall_mem_cons.mp h
    rw [map_cons, nodup_cons] at hnodup
    have happ := hx.append (ih hnodup.2 hxs) fun s hs hmem => hnodup.1 (hs ▸ hmem)
    simpa only [map_cons, mem_cons, flatMap_cons] using happ

theorem AuditParts.map {ι : Type} {xs : List ι} (seg : ι → PathSeg) {f : ι → Change}
    (hnodup : (xs.map seg).Nodup) (h : ∀ x ∈ xs, AuditParts pre (· = seg x) [f x] a b) :
    AuditParts pre (· ∈ xs.map seg) (xs.map f) a b := by
  have hflat := AuditParts.flatMap seg hnodup h
  rwa [← map_eq_flatMap] at hflat

end

/-! ### Objects and arrays -/

section

variable {path : String} {pre : List PathSeg} {opts : DiffOptions}

/-- **Objects.** -/
theorem audit_diffMap (hpre : parsePath path = .ok pre) {am bm : Fields} (ha : Sorted am)
    (hb : Sorted bm) (hka : ∀ p ∈ am, PlainKey p.1) (hkb : ∀ p ∈ bm, PlainKey p.1)
    (ih : ∀ k av bv, am.lookup k = some av → bm.lookup k = some bv →
      Audit (pre ++ [.key k]) (diffValue opts (childPath path k) av bv) av bv) :
    Audit pre (diffMap opts path am bm) (.obj am) (.obj bm) := by
  have hkeys : (mergedKeys am bm).Nodup := (sorted_mergedKeys ha hb).imp fun h => h.ne
  have hnodup : ((mergedKeys am bm).map PathSeg.key).Nodup :=
    hkeys.map fun _ _ h => PathSeg.key.inj h
  rw [diffMap_eq_flatMap ha hb]
  refine (AuditParts.flatMap PathSeg.key hnodup fun k _ => ?_).audit
  cases hav : am.lookup k with
  | none =>
    cases hbv : bm.lookup k with
    | none => exact .nil
    | some bv =>
      exact .added (parsePath_childPath_key hpre (hkb _ (mem_of_lookup hbv))) hav hbv
  | some av =>
    cases hbv : bm.lookup k with
    | none => exact .removed (parsePath_childPath_key hpre (hka _ (mem_of_lookup hav))) hav hbv
    | some bv => exact (ih k av bv hav hbv).below hav hbv

private theorem index_injective : Function.Injective fun n : Nat => PathSeg.index n := by
  intro m n h
  exact Int.ofNat.inj (PathSeg.index.inj h)

private theorem nodup_map_index {α : Type} (xs : List α) (i : Nat) :
    ((xs.zipIdx i).map fun p => PathSeg.index (p.2 : Nat)).Nodup := by
  have hcomp : (fun p : α × Nat => PathSeg.index (p.2 : Nat)) =
      (fun n : Nat => PathSeg.index n) ∘ Prod.snd := rfl
  rw [hcomp, ← map_map, zipIdx_map_snd]
  exact List.Nodup.map index_injective nodup_range'

/-- The segment of an element at some position from `n` on. -/
def IndexFrom (n : Nat) (s : PathSeg) : Prop := ∃ j : Nat, n ≤ j ∧ s = .index j

variable {aa ba : List Json} {kf : String}

private theorem auditParts_addedTail (hpre : parsePath path = .ok pre) {n : Nat}
    (ha : aa.length ≤ n) (hb : ba.length < 2 ^ 63) :
    AuditParts pre (IndexFrom n) (addedTail path n ba) (.arr aa) (.arr ba) := by
  rw [addedTail]
  refine (AuditParts.map (fun p => .index (p.2 : Nat)) (nodup_map_index _ _) ?_).mono ?_
  · rintro ⟨bv, j⟩ hmem
    obtain ⟨hle, hget⟩ := mem_zipIdx_drop_iff.mp hmem
    have hj : j < ba.length := (List.getElem?_eq_some_iff.mp hget).1
    refine .added (parsePath_indexPath hpre (hj.trans hb)) ?_ ?_
    · rw [Json.descend_index, getElem?_eq_none (ha.trans hle)]
    · rw [Json.descend_index, hget]
  · intro s hs
    obtain ⟨⟨bv, j⟩, hmem, rfl⟩ := mem_map.mp hs
    exact ⟨j, (mem_zipIdx_drop_iff.mp hmem).1, rfl⟩

private theorem auditParts_removedTail (hpre : parsePath path = .ok pre) {n : Nat}
    (hb : ba.length ≤ n) (ha : aa.length < 2 ^ 63) :
    AuditParts pre (IndexFrom n) (removedTail path n aa) (.arr aa) (.arr ba) := by
  rw [removedTail]
  refine (AuditParts.map (fun p => .index (p.2 : Nat)) ?_ ?_).mono ?_
  · rw [map_reverse, nodup_reverse]
    exact nodup_map_index _ _
  · rintro ⟨av, j⟩ hmem
    obtain ⟨hle, hget⟩ := mem_zipIdx_drop_iff.mp (mem_reverse.mp hmem)
    have hj : j < aa.length := (List.getElem?_eq_some_iff.mp hget).1
    refine .removed (parsePath_indexPath hpre (hj.trans ha)) ?_ ?_
    · rw [Json.descend_index, hget]
    · rw [Json.descend_index, getElem?_eq_none (hb.trans hle)]
  · intro s hs
    obtain ⟨⟨av, j⟩, hmem, rfl⟩ := mem_map.mp hs
    exact ⟨j, (mem_zipIdx_drop_iff.mp (mem_reverse.mp hmem)).1, rfl⟩

private theorem auditParts_arrayTail (hpre : parsePath path = .ok pre) (ha : aa.length < 2 ^ 63)
    (hb : ba.length < 2 ^ 63) :
    AuditParts pre (IndexFrom (min aa.length ba.length)) (arrayTail path aa ba) (.arr aa)
      (.arr ba) := by
  rw [arrayTail]
  rcases Nat.le_total aa.length ba.length with hle | hle
  · have hnone : removedTail path (min aa.length ba.length) aa = [] := by
      simp [removedTail, Nat.min_eq_left hle]
    rw [hnone, append_nil]
    exact auditParts_addedTail hpre (Nat.min_eq_left hle).ge hb
  · have hnone : addedTail path (min aa.length ba.length) ba = [] := by
      simp [addedTail, Nat.min_eq_right hle]
    rw [hnone, nil_append]
    exact auditParts_removedTail hpre (Nat.min_eq_right hle).ge ha

/-- **Arrays compared by position.** -/
theorem audit_indexArray (hpre : parsePath path = .ok pre) (ha : aa.length < 2 ^ 63)
    (hb : ba.length < 2 ^ 63) (ih : ∀ n av bv, aa[n]? = some av → ba[n]? = some bv →
      Audit (pre ++ [.index n]) (diffValue opts (indexPath path n) av bv) av bv) :
    Audit pre (diffElems opts path 0 aa ba ++ arrayTail path aa ba) (.arr aa) (.arr ba) := by
  have hcommon : AuditParts pre
      (· ∈ (List.range (min aa.length ba.length)).map fun j : Nat => .index j)
      (diffElems opts path 0 aa ba) (.arr aa) (.arr ba) := by
    rw [diffElems_eq_flatMap]
    refine .flatMap (fun j : Nat => .index j) (nodup_range.map index_injective) fun j hj => ?_
    have hj : j < aa.length ∧ j < ba.length := Nat.lt_min.mp (mem_range.mp hj)
    have hav : aa[j]? = some (aa.getD j .null) := by simp [hj.1]
    have hbv : ba[j]? = some (ba.getD j .null) := by simp [hj.2]
    rw [Nat.zero_add]
    exact (ih j _ _ hav hbv).below ((Json.descend_index aa j).trans hav)
      ((Json.descend_index ba j).trans hbv)
  refine (hcommon.append (auditParts_arrayTail hpre ha hb) fun s hs hfrom => ?_).audit
  obtain ⟨n, hn, rfl⟩ := mem_map.mp hs
  obtain ⟨j, hj, heq⟩ := hfrom
  exact absurd (index_injective heq ▸ mem_range.mp hn) (Nat.not_lt.mpr hj)

/-- The segment of an element that is matched by key. -/
def keySeg (kf : String) (el : Json) : PathSeg := .keyed kf ((elemKey kf el).getD "")

private theorem keySeg_eq_iff {x y : Json} (hx : ∃ ks, elemKey kf x = some ks)
    (hy : ∃ ks, elemKey kf y = some ks) :
    keySeg kf x = keySeg kf y ↔ elemKey kf x = elemKey kf y := by
  obtain ⟨ks, hks⟩ := hx
  obtain ⟨ks', hks'⟩ := hy
  simp [keySeg, hks, hks']

private theorem nodup_map_keySeg {xs : List Json} (h : keyable xs kf = true) :
    (xs.map (keySeg kf)).Nodup := by
  obtain ⟨hsome, hnodup⟩ := keyable_iff.mp h
  refine List.Nodup.map_on (fun x hx y hy hxy => ?_) (List.Nodup.of_map _ hnodup)
  exact eq_of_elemKey_eq hnodup hx hy ((keySeg_eq_iff (hsome x hx) (hsome y hy)).mp hxy)

private theorem descend_keySeg {el : Json} (hel : ∃ ks, elemKey kf el = some ks) (xs : List Json) :
    (Json.arr xs).descend (keySeg kf el) = sameKey kf el xs := by
  obtain ⟨ks, hks⟩ := hel
  rw [keySeg, hks, Option.getD_some, Json.descend_keyed hks]

private theorem diffKeyed_eq_flatMap (hba : keyable ba kf = true)
    (haa : ∀ av ∈ aa, ∃ ks, elemKey kf av = some ks) : diffKeyed opts path kf aa ba =
      aa.flatMap fun av =>
        elemDiff opts path kf ((elemKey kf av).getD "") av (sameKey kf av ba) := by
  induction aa with
  | nil => rfl
  | cons av aa ih =>
    obtain ⟨⟨ks, hks⟩, hrest⟩ := forall_mem_cons.mp haa
    rw [diffKeyed_cons hba hks, ih hrest, flatMap_cons, hks, Option.getD_some]

/-- **Arrays compared by key.** -/
theorem audit_keyedArray (hopen : Opens path pre) (haa : keyable aa kf = true)
    (hba : keyable ba kf = true) (hmild : ∀ el ∈ aa ++ ba, (keySeg kf el).Mild)
    (ih : ∀ av ∈ aa, ∀ bv, sameKey kf av ba = some bv →
      Audit (pre ++ [keySeg kf av]) (diffValue opts (elemPath path kf av) av bv) av bv) :
    Audit pre (diffKeyed opts path kf aa ba ++ addedKeyed path kf aa ba) (.arr aa) (.arr ba) := by
  obtain ⟨hasome, hanodup⟩ := keyable_iff.mp haa
  obtain ⟨hbsome, hbnodup⟩ := keyable_iff.mp hba
  have hpath : ∀ el ∈ aa ++ ba, parsePath (elemPath path kf el) = .ok (pre ++ [keySeg kf el]) :=
    fun el hel => hopen _ _ (hmild el hel)
  have hleft : AuditParts pre (· ∈ aa.map (keySeg kf)) (diffKeyed opts path kf aa ba) (.arr aa)
      (.arr ba) := by
    rw [diffKeyed_eq_flatMap hba hasome]
    refine .flatMap (keySeg kf) (nodup_map_keySeg haa) fun av hav => ?_
    have hself : (Json.arr aa).descend (keySeg kf av) = some av :=
      (descend_keySeg (hasome av hav) aa).trans (sameKey_eq_some hanodup hav rfl)
    cases hbv : sameKey kf av ba with
    | none =>
      exact .removed (hpath av (mem_append_left ba hav)) hself
        ((descend_keySeg (hasome av hav) ba).trans hbv)
    | some bv =>
      exact (ih av hav bv hbv).below hself ((descend_keySeg (hasome av hav) ba).trans hbv)
  have hright : AuditParts pre (fun s => s ∉ aa.map (keySeg kf)) (addedKeyed path kf aa ba)
      (.arr aa) (.arr ba) := by
    rw [addedKeyed]
    have hnew : ∀ el ∈ ba.filter (fun el => (elemKey kf el).getD "" ∉
        aa.map fun el => (elemKey kf el).getD ""), el ∈ ba ∧ keySeg kf el ∉ aa.map (keySeg kf) := by
      intro el hel
      obtain ⟨hmem, hnot⟩ := mem_filter.mp hel
      refine ⟨hmem, fun hin => of_decide_eq_true hnot ?_⟩
      obtain ⟨av, hav, heq⟩ := mem_map.mp hin
      exact mem_map.mpr ⟨av, hav, (PathSeg.keyed.inj heq).2⟩
    refine (AuditParts.map (keySeg kf) ?_ fun el hel => ?_).mono fun s hs => ?_
    · exact (nodup_map_keySeg hba).sublist (filter_sublist.map _)
    · obtain ⟨hmem, hnot⟩ := hnew el hel
      refine .added (hpath el (mem_append_right aa hmem)) ?_ ?_
      · -- no element on the left has the key
        rw [descend_keySeg (hbsome el hmem), sameKey_eq_none]
        intro hin
        obtain ⟨av, hav, heq⟩ := mem_map.mp hin
        exact hnot (mem_map.mpr
          ⟨av, hav, (keySeg_eq_iff (hasome av hav) (hbsome el hmem)).mpr heq⟩)
      · rw [descend_keySeg (hbsome el hmem), sameKey_eq_some hbnodup hmem rfl]
    · obtain ⟨el, hel, rfl⟩ := mem_map.mp hs
      exact (hnew el hel).2
  exact (hleft.append hright fun s hs hnot => hnot hs).audit

/-! ### The comparison of two values -/

private theorem audit_diffValue (hopts : opts.MildKeys) {a b : Json}
    (hpre : parsePath path = .ok pre)
    (hopen : ∀ xs, a = .arr xs → Opens path pre) (ha : a.Regular) (hb : b.Regular)
    (hdots : compared (dotless opts) opts path a a b = true) :
    Audit pre (diffValue opts path a b) a b := by
  induction a using Json.induction generalizing b path pre with
  | null | bool | num | str =>
    unfold diffValue
    split_ifs with heq
    · exact .nil
    · exact .replace hpre
  | arr aa ih =>
    by_cases heq : Json.arr aa = b
    · rw [diffValue_of_eq heq]
      exact .nil
    · cases b with
      | null | bool | num | str | obj =>
        unfold diffValue
        rw [if_neg heq]
        exact .replace hpre
      | arr ba =>
        obtain ⟨halen, hva⟩ := Json.regular_arr_iff.mp ha
        obtain ⟨hblen, hvb⟩ := Json.regular_arr_iff.mp hb
        rw [compared, Bool.and_eq_true] at hdots
        cases hkf : opts.keyFor path aa ba with
        | some kf =>
          rw [diffValue_arr_keyed heq hkf]
          obtain ⟨hlook, haa, hba⟩ := keyFor_eq_some.mp hkf
          have hfield := hopts _ (mem_of_lookup hlook)
          simp only [hkf, dotless, comparedKeyed_iff] at hdots
          have hmild : ∀ el ∈ aa ++ ba, (keySeg kf el).Mild := fun el hel =>
            ⟨hfield.1, hfield.2, by simpa using all_eq_true.mp hdots.1 el hel⟩
          refine audit_keyedArray (hopen aa rfl) haa hba hmild fun av hav bv hbv => ?_
          obtain ⟨ks, hks⟩ := (keyable_iff.mp haa).1 av hav
          have hself := sameKey_eq_some (keyable_iff.mp haa).2 hav rfl
          exact ih av hav (hopen aa rfl _ _ (hmild av (mem_append_left ba hav)))
            (fun xs h => by rw [h] at hks; cases hks) (hva av hav) (hvb bv (mem_of_sameKey hbv).1)
            (hdots.2 av hav av bv hself hbv)
        | none =>
          rw [diffValue_arr_index heq hkf]
          simp only [hkf, comparedElems_iff, Nat.zero_add] at hdots
          refine audit_indexArray hpre halen hblen fun n av bv hav hbv => ?_
          have hn : n < 2 ^ 63 := (List.getElem?_eq_some_iff.mp hav).1.trans halen
          exact ih av (mem_of_getElem? hav) (parsePath_indexPath hpre hn)
            (fun _ _ => opens_indexPath hpre hn) (hva av (mem_of_getElem? hav))
            (hvb bv (mem_of_getElem? hbv)) (hdots.2 n av av bv hav hav hbv)
  | obj am ih =>
    unfold diffValue
    split_ifs with heq
    · exact .nil
    · cases b with
      | null | bool | num | str | arr => exact .replace hpre
      | obj bm =>
        obtain ⟨hsa, hva⟩ := Json.regular_obj_iff.mp ha
        obtain ⟨hsb, hvb⟩ := Json.regular_obj_iff.mp hb
        rw [compared, comparedFields_iff] at hdots
        refine audit_diffMap hpre hsa hsb (fun p hp => (hva p hp).1) (fun p hp => (hvb p hp).1) ?_
        intro k av bv hav hbv
        obtain ⟨hplain, hreg⟩ := hva _ (mem_of_lookup hav)
        exact ih _ (mem_of_lookup hav) (parsePath_childPath_key hpre hplain)
          (fun _ _ => opens_childPath hpre hplain) hreg (hvb _ (mem_of_lookup hbv)).2
          (hdots _ (mem_of_lookup hav) av bv hav hbv)

end

/-- **Exact audit data.** Every change between two regular values has a path that leads to its old
value in the first one and to its new value in the second one, and nowhere in a value that lacks
the part. No path is another one or leads on from it. -/
theorem diff_exact {opts : DiffOptions} (hopts : opts.MildKeys) {a b : Json} (ha : a.Regular)
    (hb : b.Regular) (hdots : opts.DotlessKeys a b) :
    (∀ ch ∈ diff a b opts, ∃ segs, parsePath ch.path = .ok segs ∧ ch.Exact a b segs) ∧
      (diff a b opts).Pairwise Change.Apart := by
  obtain ⟨hexact, hapart⟩ := audit_diffValue hopts rfl (fun _ _ => opens_root) ha hb hdots
  exact ⟨hexact, hapart⟩

/-- Lines of an order, matched by their number, one of them new and one gone, and a list of tags
that is shorter than before. -/
theorem diff_exact_order :
    let line (no qty : Json) := Json.obj [("no", no), ("qty", qty)]
    let int (n : Int) := Json.num (.ofInt n)
    let opts : DiffOptions := ⟨[("lines", "no")]⟩
    let a := Json.obj [("lines", .arr [line (int 1) (int 5), line (int 2) (int 5)]),
      ("tags", .arr [.str "a", .str "b"])]
    let b := Json.obj [("lines", .arr [line (int 3) (int 1), line (int 2) (int 7)]),
      ("tags", .arr [.str "c"])]
    (diff a b opts).map Change.path =
        ["lines[no=1]", "lines[no=2].qty", "lines[no=3]", "tags.0", "tags.1"] ∧
      ∀ ch ∈ diff a b opts, ∃ segs, parsePath ch.path = .ok segs ∧ ch.Exact a b segs := by
  intro line int opts a b
  have hopts : opts.MildKeys := by decide
  refine ⟨by decide +kernel, (diff_exact hopts (a := a) (b := b) ?_ ?_ ?_).1⟩
  · exact ⟨by decide +kernel, by decide +kernel⟩
  · exact ⟨by decide +kernel, by decide +kernel⟩
  · decide +kernel

end Letopis
