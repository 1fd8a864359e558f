import Letopis.Diff.InPlace

/-!
# `Apply` leaves its input alone

The copy that `Apply` starts from is made of new cells only (`deepCopy_reads`), and every change
that keeps off lent values writes to such cells (`Owned.Step.inPlace`). So the state and the
change list read after `Apply` as they did before, and the change list that is stored then
replays to the same result: `apply_leaves_input`.

Where a change does lead into an earlier one's new value, `Apply` edits that value in place, and
the change list no longer says what was done: `edited_change_list`.
-/

namespace Letopis.Mutable

open SortedAssoc List

variable {h₀ h h₁ h' : Heap}

/-! ### The copy -/

/-- What copying leaves: new cells that hold the copies, with their addresses apart, and the old
cells as they were. -/
structure Copied (h₀ h h' : Heap) (us : List Marked) (ts : List Placed) : Prop where
  held : ∀ t ∈ ts, Held h₀ h' t
  marks : ts.map Owned.marks = us
  nodup : (ts.flatMap Owned.addrs).Nodup
  fresh : ∀ b ∈ ts.flatMap Owned.addrs, h.length ≤ b
  kept : Extends h h'
  grows : h.length ≤ h'.length

theorem Copied.nil : Copied h₀ h h [] [] :=
  ⟨by simp, rfl, nodup_nil, by simp, fun _ _ => rfl, le_rfl⟩

theorem Copied.scalar {r : Ref} {v : Json} (hr : Reads h₀ v r) :
    Copied h₀ h h [.lent () v] [.lent r v] :=
  ⟨by simpa using Held.lent hr, rfl, nodup_nil, by simp [Owned.addrs], fun _ _ => rfl, le_rfl⟩

theorem Copied.append {us us' : List Marked} {ts ts' : List Placed}
    (hc : Copied h₀ h h₁ us ts) (hc' : Copied h₀ h₁ h' us' ts') :
    Copied h₀ h h' (us ++ us') (ts ++ ts') := by
  have hlt : ∀ t ∈ ts, ∀ b ∈ t.addrs, b < h₁.length := fun t ht b hb =>
    ((hc.held t ht).bounds b hb).2
  refine ⟨fun t ht => ?_, by rw [map_append, hc.marks, hc'.marks], ?_, fun b hb => ?_,
    hc.kept.trans hc'.kept hc.grows, hc.grows.trans hc'.grows⟩
  · rcases mem_append.mp ht with ht | ht
    · exact (hc.held t ht).frame fun b hb => hc'.kept b (hlt t ht b hb)
    · exact hc'.held t ht
  · rw [flatMap_append]
    refine nodup_append.mpr ⟨hc.nodup, hc'.nodup, fun b hb d hd => ?_⟩
    obtain ⟨t, ht, hb⟩ := mem_flatMap.mp hb
    exact ((hlt t ht b hb).trans_le (hc'.fresh d hd)).ne
  · rw [flatMap_append, mem_append] at hb
    rcases hb with hb | hb
    · exact hc.fresh b hb
    · exact hc.grows.trans (hc'.fresh b hb)

theorem Copied.container {us : List Marked} {ts : List Placed} (hc : Copied h₀ h h₁ us ts)
    {c : Cell} {t : Placed} (haddrs : t.addrs = h₁.length :: ts.flatMap Owned.addrs)
    (hheld : (∀ x ∈ ts, Held h₀ (h₁ ++ [c]) x) → Held h₀ (h₁ ++ [c]) t) :
    Copied h₀ h (h₁ ++ [c]) [t.marks] [t] := by
  have hlt : ∀ b < h₁.length, (h₁ ++ [c])[b]? = h₁[b]? := fun b hb =>
    getElem?_append_left hb
  have hbounds : ∀ b ∈ ts.flatMap Owned.addrs, b < h₁.length := fun b hb => by
    obtain ⟨x, hx, hb⟩ := mem_flatMap.mp hb
    exact ((hc.held x hx).bounds b hb).2
  have hheld' := hheld fun x hx => (hc.held x hx).frame fun b hb =>
    hlt b ((hc.held x hx).bounds b hb).2
  have hflat : [t].flatMap Owned.addrs = h₁.length :: ts.flatMap Owned.addrs := by
    rw [flatMap_singleton, haddrs]
  refine ⟨by simpa using hheld', rfl, ?_, ?_, hc.kept.trans hlt hc.grows, ?_⟩
  · rw [hflat, nodup_cons]
    exact ⟨fun hmem => (hbounds _ hmem).ne rfl, hc.nodup⟩
  · rw [hflat]
    exact forall_mem_cons.mpr ⟨hc.grows, hc.fresh⟩
  · exact hc.grows.trans (by simp)

/-- A value is copied, whatever the heap holds beyond the first cells. -/
def Copies (h₀ : Heap) (copy : Heap → Ref → Option (Heap × Ref)) (x : Json) (r : Ref) : Prop :=
  ∀ h, Extends h₀ h → h₀.length ≤ h.length →
    ∃ h' t, copy h r = some (h', t.ref) ∧ Copied h₀ h h' [own x] [t]

private theorem copySlots_copies {copy : Heap → Ref → Option (Heap × Ref)} {xs : List Json}
    {rs : List Ref} (hlen : rs.length = xs.length)
    (hall : ∀ (i : Nat) x r, xs[i]? = some x → rs[i]? = some r → Copies h₀ copy x r)
    (he : Extends h₀ h) (hle : h₀.length ≤ h.length) :
    ∃ h' ts, copySlots copy h rs = some (h', ts.map Owned.ref) ∧
      Copied h₀ h h' (xs.map own) ts := by
  induction xs generalizing rs h with
  | nil =>
    obtain rfl := length_eq_zero_iff.mp hlen
    exact ⟨h, [], rfl, .nil⟩
  | cons x xs ih =>
    cases rs with
    | nil => cases hlen
    | cons r rs =>
      obtain ⟨h₁, t, hcopy, hc⟩ := hall 0 x r rfl rfl h he hle
      obtain ⟨h', ts, hrest, hcs⟩ := ih (Nat.succ.inj hlen)
        (fun i x r hx hr => hall (i + 1) x r hx hr) (he.trans hc.kept hle)
        (hle.trans hc.grows)
      exact ⟨h', t :: ts, by simp [copySlots, hcopy, hrest], hc.append hcs⟩

private theorem copyEntries_eq (copy : Heap → Ref → Option (Heap × Ref)) (h : Heap)
    (m : List (String × Ref)) : copyEntries copy h m =
      (copySlots copy h (m.map Prod.snd)).map fun (h', rs) => (h', (m.map Prod.fst).zip rs) := by
  induction m generalizing h with
  | nil => rfl
  | cons p m ih =>
    obtain ⟨k, r⟩ := p
    simp only [copyEntries, map_cons, copySlots, ih]
    cases copy h r with
    | none => rfl
    | some res =>
      cases hrest : copySlots copy res.1 (m.map Prod.snd) <;> simp [hrest]

private theorem mapValues_zip {α β : Type} (f : α → β) (ks : List String) (vs : List α) :
    mapValues f (ks.zip vs) = ks.zip (vs.map f) := by
  rw [mapValues, zip_map_right]
  rfl

private theorem deepCopy_arr {a : Nat} {xs : List Json} {rs spare : List Ref} {fuel : Nat}
    (hcell : h₀[a]? = some (.arr (rs ++ spare))) (hlen : rs.length = xs.length)
    (hall : ∀ (i : Nat) x r, xs[i]? = some x → rs[i]? = some r →
      Copies h₀ (deepCopy fuel) x r) :
    Copies h₀ (deepCopy (fuel + 1)) (.arr xs) (.arr a xs.length) := by
  intro h he hle
  have htake : (rs ++ spare).take xs.length = rs := by rw [← hlen, take_left]
  obtain ⟨h₁, ts, hcopy, hc⟩ := copySlots_copies hlen hall he hle
  have hts : ts.length = xs.length := by
    rw [← length_map (f := Owned.marks), hc.marks, length_map]
  refine ⟨h₁ ++ [.arr (ts.map Owned.ref)], .arr h₁.length ts, ?_, ?_⟩
  · simp only [deepCopy, he.get hcell, htake, hcopy, Owned.ref, hts]
    rfl
  · have hown : own (.arr xs) = (Owned.arr h₁.length ts : Placed).marks := by
      rw [own, ownAll_eq_map, Owned.marks, Owned.marksAll_eq_map, hc.marks]
    rw [hown]
    refine hc.container (by rw [Owned.addrs_arr]) fun hheld => ?_
    have hcell' : (h₁ ++ [.arr (ts.map Owned.ref)])[h₁.length]? =
        some (.arr (ts.map Owned.ref ++ [])) := by simp
    exact .arr (hle.trans hc.grows) hcell' hheld

private theorem deepCopy_obj {a : Nat} {kvs : Fields} {m : List (String × Ref)} {fuel : Nat}
    (hcell : h₀[a]? = some (.obj m)) (hkeys : m.map Prod.fst = kvs.map Prod.fst)
    (hs : Sorted kvs) (hall : ∀ (i : Nat) p q, kvs[i]? = some p → m[i]? = some q →
      Copies h₀ (deepCopy fuel) p.2 q.2) :
    Copies h₀ (deepCopy (fuel + 1)) (.obj kvs) (.obj a) := by
  intro h he hle
  have hlen : m.length = kvs.length := by simpa using congrArg List.length hkeys
  have hvals : ∀ (i : Nat) x r, (kvs.map Prod.snd)[i]? = some x → (m.map Prod.snd)[i]? = some r →
      Copies h₀ (deepCopy fuel) x r := fun i x r hx hr => by
    obtain ⟨p, hp, rfl⟩ := Option.map_eq_some_iff.mp (getElem?_map ▸ hx)
    obtain ⟨q, hq, rfl⟩ := Option.map_eq_some_iff.mp (getElem?_map ▸ hr)
    exact hall i p q hp hq
  obtain ⟨h₁, ts, hcopy, hc⟩ := copySlots_copies (by simpa using hlen) hvals he hle
  have hts : (kvs.map Prod.fst).length = ts.length := by
    rw [← length_map (f := Owned.marks), hc.marks]
    simp
  have hfst : ((kvs.map Prod.fst).zip ts).map Prod.fst = kvs.map Prod.fst :=
    map_fst_zip hts.le
  have hsnd : ((kvs.map Prod.fst).zip ts).map Prod.snd = ts := map_snd_zip hts.ge
  refine ⟨h₁ ++ [.obj (mapValues Owned.ref ((kvs.map Prod.fst).zip ts))],
    .obj h₁.length ((kvs.map Prod.fst).zip ts), ?_, ?_⟩
  · simp only [deepCopy, he.get hcell, copyEntries_eq, hcopy, hkeys, mapValues_zip]
    rfl
  · have hown : own (.obj kvs) =
        (Owned.obj h₁.length ((kvs.map Prod.fst).zip ts) : Placed).marks := by
      have hzip : (kvs.map Prod.fst).zip (kvs.map Prod.snd) = kvs := by
        rw [← unzip_fst, ← unzip_snd, zip_unzip]
      rw [own, ownEntries_eq, Owned.marks, Owned.entryMarks_eq, mapValues_zip, hc.marks,
        ← mapValues_zip, hzip]
    rw [hown]
    refine hc.container (by rw [Owned.addrs_obj, hsnd]) fun hheld => ?_
    have hs' : Sorted ((kvs.map Prod.fst).zip ts) := by
      rwa [sorted_iff_keys, hfst, ← sorted_iff_keys]
    refine .obj (hle.trans hc.grows) (by simp) hs' fun p hp => hheld p.2 ?_
    exact hsnd ▸ mem_map_of_mem hp

private theorem deepCopy_reads {j : Json} {r : Ref} (hr : Reads h₀ j r) (hj : j.WF) {fuel : Nat}
    (hfuel : sizeOf j ≤ fuel) : Copies h₀ (deepCopy fuel) j r := by
  induction hr generalizing fuel with
  | null | bool | num | str =>
    obtain ⟨n, rfl⟩ := Nat.exists_eq_add_one.mpr (lt_of_lt_of_le (by simp) hfuel)
    exact fun h _ _ => ⟨h, _, rfl, .scalar (by constructor)⟩
  | @arr a xs rs spare hcell hlen _ ih =>
    obtain ⟨n, rfl⟩ := Nat.exists_eq_add_one.mpr (lt_of_lt_of_le (by simp) hfuel)
    rw [Json.arr.sizeOf_spec] at hfuel
    refine deepCopy_arr hcell hlen fun i x r hx hr => ih i x r hx hr ?_ ?_
    · exact (Json.wf_arr_iff.mp hj).2 x (mem_of_getElem? hx)
    · have := sizeOf_lt_of_mem (mem_of_getElem? hx)
      omega
  | @obj a kvs m hcell hkeys _ ih =>
    obtain ⟨n, rfl⟩ := Nat.exists_eq_add_one.mpr (lt_of_lt_of_le (by simp) hfuel)
    rw [Json.obj.sizeOf_spec] at hfuel
    obtain ⟨hs, hvals⟩ := Json.wf_obj_iff.mp hj
    refine deepCopy_obj hcell hkeys hs fun i p q hp hq => ih i p q hp hq ?_ ?_
    · exact hvals p (mem_of_getElem? hp)
    · obtain ⟨k, v⟩ := p
      have := sizeOf_lt_of_mem (mem_of_getElem? hp)
      simp only [Prod.mk.sizeOf_spec] at this ⊢
      omega

/-! ### The changes, one after another -/

/-- A change reads as one whose values are given outright. -/
structure ReadsChange (h : Heap) (ch : Change) (rc : RefChange) : Prop where
  path : rc.path = ch.path
  op : rc.op = ch.op
  old : Reads h ch.old rc.old
  new : Reads h ch.new rc.new

theorem ReadsChange.mono (he : Extends h h') {ch : Change} {rc : RefChange}
    (hr : ReadsChange h ch rc) : ReadsChange h' ch rc :=
  ⟨hr.path, hr.op, hr.old.mono he, hr.new.mono he⟩

variable {u : Marked}

/-- An edit that keeps off lent values is what `Apply` does to the value with one change. -/
theorem applyOneChange_of_editChange {ch : Change} {u' : Marked} (hu : u.editChange ch = some u') :
    Letopis.applyOneChange u.value ch = .ok u'.value := by
  rw [Owned.editChange] at hu
  rw [Letopis.applyOneChange]
  split at hu <;> rename_i hparse
  · cases hu
  · split_ifs at hu with hop
    cases hu
    simp only [hparse, applyAt, hop, if_true, Owned.value]
  · rename_i hne
    simp only [hparse]
    rw [applyAt]
    exact (Owned.step_of_edit hu).applyStep
    exact hne

private theorem apply_of_editChanges {chs : List Change} {u' : Marked}
    (hu : chs.foldlM Owned.editChange u = some u') : Letopis.apply u.value chs = .ok u'.value := by
  induction chs generalizing u with
  | nil =>
    cases hu
    rfl
  | cons ch chs ih =>
    rw [foldlM_cons] at hu
    obtain ⟨u₁, hu₁, hu⟩ := Option.bind_eq_some_iff.mp hu
    rw [Letopis.apply, applyOneChange_of_editChange hu₁]
    exact ih hu

/-- The edited value is in the heap, apart from the first cells, which are as they were. -/
structure Edited (h₀ h : Heap) (u : Marked) (t : Placed) : Prop where
  marks : t.marks = u
  held : Held h₀ h t
  nodup : t.addrs.Nodup
  kept : Extends h₀ h
  grows : h₀.length ≤ h.length

theorem Edited.steps {t t' : Placed} (ht : Edited h₀ h u t) (hsteps : Steps h₀ h h' t t') :
    Edited h₀ h' t'.marks t' := by
  refine ⟨rfl, hsteps.held, hsteps.nodup, fun b hb => ?_, ht.grows.trans hsteps.grows⟩
  have hnot : b ∉ t.addrs := fun hmem => (ht.held.bounds b hmem).1.not_gt hb
  rw [hsteps.frame b (hb.trans_le ht.grows) hnot, ht.kept b hb]

theorem Edited.applyOneChange (grow : Nat → Nat) {ch : Change} {rc : RefChange} {u' : Marked}
    {t : Placed} (ht : Edited h₀ h u t) (hch : ReadsChange h₀ ch rc)
    (hu : u.editChange ch = some u') :
    ∃ h' t', Mutable.applyOneChange grow h t.ref rc = .ok (h', t'.ref) ∧
      Edited h₀ h' u' t' := by
  rw [Owned.editChange, ← hch.path] at hu
  rw [Mutable.applyOneChange]
  rcases hparse : parsePath rc.path with err | (_ | ⟨s, segs⟩)
  · simp only [hparse] at hu
    cases hu
  · -- the change replaces the whole value
    simp only [hparse] at hu
    split_ifs at hu with hop
    cases hu
    refine ⟨h, .lent rc.new ch.new, ?_, rfl, .lent hch.new, nodup_nil, ht.kept, ht.grows⟩
    simp only [hch.op, hop, if_true, Owned.ref]
  · simp only [hparse] at hu
    obtain ⟨h', t', hrun, rfl, hsteps⟩ := (Owned.step_of_edit hu).inPlace grow hch.op
      hch.new ht.kept ht.marks ht.held ht.nodup
    exact ⟨h', t', hrun, ht.steps hsteps⟩

theorem Edited.applyChanges (grow : Nat → Nat) {chs : List Change} {rcs : List RefChange}
    {u' : Marked} {t : Placed} (ht : Edited h₀ h u t) (hchs : List.Forall₂ (ReadsChange h₀) chs rcs)
    (hu : chs.foldlM Owned.editChange u = some u') :
    ∃ h' t', Mutable.applyChanges grow h t.ref rcs = .ok (h', t'.ref) ∧
      Edited h₀ h' u' t' := by
  induction hchs generalizing h u t with
  | nil =>
    cases hu
    exact ⟨h, t, rfl, ht⟩
  | @cons ch rc chs rcs hch _ ih =>
    rw [foldlM_cons] at hu
    obtain ⟨u₁, hu₁, hu⟩ := Option.bind_eq_some_iff.mp hu
    obtain ⟨h₁, t₁, hrun, ht₁⟩ := ht.applyOneChange grow hch hu₁
    obtain ⟨h', t', hrest, ht'⟩ := ih ht₁ hu
    exact ⟨h', t', by rw [Mutable.applyChanges, hrun]; exact hrest, ht'⟩

/-- `Apply` leaves the edited value in new cells, and the cells that were there as they were. -/
theorem apply_edited (grow : Nat → Nat) {a : Json} {state : Ref} {chs : List Change}
    {rcs : List RefChange} (ha : a.WF) (hstate : Reads h a state)
    (hchs : List.Forall₂ (ReadsChange h) chs rcs)
    (hu : chs.foldlM Owned.editChange (own a) = some u) {fuel : Nat} (hfuel : sizeOf a ≤ fuel) :
    ∃ h' t, apply grow fuel h state rcs = some (.ok (h', t.ref)) ∧ Edited h h' u t := by
  obtain ⟨h₁, t, hcopy, hc⟩ := deepCopy_reads hstate ha hfuel h (fun _ _ => rfl) le_rfl
  have ht : Edited h h₁ (own a) t := by
    refine ⟨by simpa using hc.marks, hc.held t mem_cons_self, ?_, hc.kept, hc.grows⟩
    simpa using hc.nodup
  obtain ⟨h', t', hrun, ht'⟩ := ht.applyChanges grow hchs hu
  refine ⟨h', t', ?_, ht'⟩
  rw [apply, hcopy]
  exact congrArg some hrun

/-- **`Apply` leaves its input alone.** For a state and a change list in the heap, with no change
that leads into a value an earlier one has put in: `Apply` succeeds, every cell that was there
holds what it held, so the state and the changes read as before, and the list so stored replays
to the new state. -/
theorem apply_leaves_input {grow : Nat → Nat} {h : Heap} {a : Json} {state : Ref}
    {chs : List Change} {rcs : List RefChange} (ha : a.WF) (hstate : Reads h a state)
    (hchs : List.Forall₂ (ReadsChange h) chs rcs) (hkeeps : KeepsOff a chs) :
    ∃ n, ∀ fuel ≥ n, ∃ h' result b,
      apply grow fuel h state rcs = some (.ok (h', result)) ∧ Reads h' b result ∧
      Extends h h' ∧ Reads h' a state ∧ List.Forall₂ (ReadsChange h') chs rcs ∧
      Letopis.apply a chs = .ok b := by
  refine ⟨sizeOf a, fun fuel hfuel => ?_⟩
  obtain ⟨u, hu⟩ := Option.isSome_iff_exists.mp hkeeps
  obtain ⟨h', t, hrun, ht⟩ := apply_edited grow ha hstate hchs hu hfuel
  refine ⟨h', t.ref, u.value, hrun, ?_, ht.kept, hstate.mono ht.kept, ?_, ?_⟩
  · rw [← ht.marks, Owned.value_marks]
    exact ht.held.reads ht.kept
  · exact hchs.imp fun _ _ hr => hr.mono ht.kept
  · have happly := apply_of_editChanges hu
    rwa [value_own] at happly

/-- An order is paid for and gets its tags: two cells, read as before. -/
theorem apply_leaves_input_order :
    let h : Heap := [.obj [("paid", .bool false)], .arr [.str "new", .null]]
    let a := Json.obj [("paid", .bool false)]
    let chs : List Change := [⟨"tags", .add, .null, .arr [.str "new"]⟩,
      ⟨"paid", .change, .bool false, .bool true⟩]
    let rcs : List RefChange := [⟨"tags", .add, .null, .arr 1 1⟩,
      ⟨"paid", .change, .bool false, .bool true⟩]
    KeepsOff a chs ∧ ∃ n, ∀ fuel ≥ n, ∃ h' result b,
      apply id fuel h (.obj 0) rcs = some (.ok (h', result)) ∧ Reads h' b result ∧
      Extends h h' ∧ Reads h' a (.obj 0) ∧ List.Forall₂ (ReadsChange h') chs rcs ∧
      Letopis.apply a chs = .ok b := by
  intro h a chs rcs
  have ha : Reads h a (.obj 0) := by
    refine .obj rfl rfl fun i p q hp hq => ?_
    cases i with
    | zero =>
      cases hp
      cases hq
      exact .bool false
    | succ i => simp at hp
  have htags : Reads h (.arr [.str "new"]) (.arr 1 1) := by
    have hcell : h[1]? = some (.arr ([.str "new"] ++ [.null])) := rfl
    refine .arr hcell rfl fun i x r hx hr => ?_
    cases i with
    | zero =>
      cases hx
      cases hr
      exact .str "new"
    | succ i => simp at hx
  have hchs : List.Forall₂ (ReadsChange h) chs rcs :=
    .cons ⟨rfl, rfl, .null, htags⟩ (.cons ⟨rfl, rfl, .bool false, .bool true⟩ .nil)
  have hkeeps : KeepsOff a chs := by decide
  exact ⟨hkeeps, apply_leaves_input (by decide) ha hchs hkeeps⟩

/-- A change list that adds an object and removes an entry of it: `Apply` succeeds and removes the
entry from the object that the first change holds, so that the list as stored says something else,
and its replay from the same state fails. -/
theorem edited_change_list :
    let h : Heap := [.obj [], .obj [("x", .bool true)]]
    let rcs : List RefChange := [⟨"a", .add, .null, .obj 1⟩, ⟨"a.x", .remove, .bool true, .null⟩]
    apply id 1 h (.obj 0) rcs =
        some (.ok ([.obj [], .obj [], .obj [("a", .obj 1)]], .obj 2)) ∧
      Letopis.apply (.obj []) [⟨"a", .add, .null, .obj [("x", .bool true)]⟩,
        ⟨"a.x", .remove, .bool true, .null⟩] = .ok (.obj [("a", .obj [])]) ∧
      Letopis.apply (.obj []) [⟨"a", .add, .null, .obj []⟩,
        ⟨"a.x", .remove, .bool true, .null⟩] = .error (.pathNotFound "a.x") := by
  refine ⟨by decide, by decide, by decide⟩

end Letopis.Mutable
