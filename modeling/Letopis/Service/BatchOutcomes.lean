import Letopis.Service.BatchAlone

/-!
# What becomes of each item of a batch

`IngestBatch` returns one failure or none for each item, in a slice next to the one of the items. On
the way there the items are told apart by their positions: each collection has a list of positions,
a failure is noted under the position of its item, and an event carries the position along that it
came from, so that a failed insertion can be noted under the same.

`Batch.judge` is the same batch without positions to look anything up by: every item is handed on
together with what has become of it. `ingestBatch_eq` says that both are one program, whatever the
store replies, and `judge_yields` that the result of every item stands at its own position.
-/

namespace Letopis

open Interleaving List Function

/-! ### Noting results -/

/-- Note the results of items under their positions. No failure is taken back. -/
def assign (errs : Nat → Option IngestErr) (rs : List (Nat × Option IngestErr)) :
    Nat → Option IngestErr :=
  rs.foldl (fun errs q => update errs q.1 (q.2.or (errs q.1))) errs

section Assign

variable {errs : Nat → Option IngestErr} {rs : List (Nat × Option IngestErr)} {k : Nat}
  {r : Option IngestErr}

private theorem assign_cons (q : Nat × Option IngestErr) : assign errs (q :: rs) =
    assign (update errs q.1 (q.2.or (errs q.1))) rs :=
  rfl

private theorem assign_append (rs' : List (Nat × Option IngestErr)) :
    assign errs (rs ++ rs') = assign (assign errs rs) rs' :=
  foldl_append

private theorem assign_of_notMem (hk : k ∉ rs.map Prod.fst) : assign errs rs k = errs k := by
  induction rs generalizing errs with
  | nil => rfl
  | cons q rs ih =>
    rw [map_cons, mem_cons, not_or] at hk
    rw [assign_cons, ih hk.2, update_of_ne hk.1]

private theorem assign_of_mem (hnodup : (rs.map Prod.fst).Nodup) (hmem : (k, r) ∈ rs) :
    assign errs rs k = r.or (errs k) := by
  induction rs generalizing errs with
  | nil => exact absurd hmem not_mem_nil
  | cons q rs ih =>
    obtain ⟨hq, hrs⟩ := nodup_cons.mp hnodup
    rw [assign_cons]
    rcases mem_cons.mp hmem with rfl | hmem
    · rw [assign_of_notMem hq, update_self]
    · have hne : k ≠ q.1 := fun heq => hq (heq ▸ mem_map_of_mem hmem)
      rw [ih hrs hmem, update_of_ne hne]

end Assign

/-! ### Items and their outcomes -/

/-- What the fold over the items of a collection hands on from one item to the next. -/
structure Progress where
  /-- The loaded entities and their states. -/
  running : String → Option (Option CurrentState) := fun _ => none
  lastEv : String → Option Event := fun _ => none
  /-- The states to upsert after the insertion. -/
  finals : String → Option CurrentState := fun _ => none
  finalOrder : List String := []
  /-- One snapshot candidate for each event. -/
  snaps : List Snapshot := []

/-- The fold that has come here, with its failures and events. -/
def Progress.fold (r : Progress) (errs : Nat → Option IngestErr) (events : List (Event × Nat)) :
    Fold :=
  ⟨r.running, r.lastEv, r.finals, r.finalOrder, events, r.snaps, errs⟩

/-- What has become of an item when the next one is looked at. -/
inductive Verdict where
  | failed (e : IngestErr)
  | silent
  | planned (ev : Event)

namespace Verdict

/-- The event of the item, if it has one. -/
def events : Verdict → List Event
  | .planned ev => [ev]
  | _ => []

/-- The result of the item: its own failure, or the failure to insert its event. -/
def report (unwritten : Option IngestErr) : Verdict → Option IngestErr
  | .failed e => some e
  | .silent => none
  | .planned _ => unwritten

end Verdict

namespace Batch

variable (b : Batch) (cfg : CollectionConfig) (c : String)

/-- Plan one item against the state its entity has reached. -/
def judgePlan (r : Progress) (it : BatchItem) (k : Nat) (cur : Option CurrentState) :
    Verdict × Progress :=
  let eid := it.command.entityID
  match b.outcome cfg c (r.lastEv eid) it k cur with
  | .error e => (.failed e, r)
  | .ok none => (.silent, r)
  | .ok (some (ev, newState, deleted)) =>
    let next : CurrentState := ⟨eid, ev.version, ev.tsReceived, deleted, newState⟩
    (.planned ev,
      { running := update r.running eid (some (some next))
        lastEv := if hasPreStore b.ing.pre cfg then update r.lastEv eid (some ev)
          else r.lastEv
        finals := update r.finals eid (some next)
        finalOrder := if (r.finals eid).isSome then r.finalOrder else r.finalOrder ++ [eid]
        snaps := r.snaps ++ [⟨eid, ev.version, ev.tsReceived, deleted, newState⟩] })

/-- The verdict on one item. -/
def judgeItem (r : Progress) (it : BatchItem) (k : Nat) : Prog Storage (Verdict × Progress) := do
  let eid := it.command.entityID
  match r.running eid with
  | some cur => return b.judgePlan cfg c r it k cur
  | none =>
    match ← load c eid with
    | .error e => return (.failed e, r)
    | .ok cur =>
      let r := { r with running := update r.running eid (some cur) }
      if hasPreStore b.ing.pre cfg then
        match ← lastEvent c eid with
        | .error e => return (.failed e, r)
        | .ok last =>
          return b.judgePlan cfg c { r with lastEv := update r.lastEv eid last } it k cur
      else return b.judgePlan cfg c r it k cur

/-- The items one after the other, each with what has become of it. -/
def judgeItems : List (BatchItem × Nat) → Progress →
    Prog Storage (List ((BatchItem × Nat) × Verdict) × Progress)
  | [], r => return ([], r)
  | p :: items, r => do
    let x ← b.judgeItem cfg c r p.1 p.2
    let y ← judgeItems items x.2
    return ((p, x.1) :: y.1, y.2)

/-- Write the events and what follows from them: the failure of the insertion, if it failed. -/
def judgeWrite (evs : List Event) (r : Progress) : Prog Storage (Option IngestErr) := do
  if evs = [] then return none
  else
    match ← insertMany c evs with
    | .error e => return some (.appendBatchFailed c evs.length e)
    | .ok () =>
      upsertFinals c r.finals r.finalOrder
      b.buildSnapshots cfg c r.snaps
      return none

/-- The items of a collection, each with its result. -/
def judgeCollection : Prog Storage (List ((BatchItem × Nat) × Option IngestErr)) := do
  match ← Storage.ask (.ensureCollection c) with
  | .error e => return (b.itemsOf c).map fun p => (p, some (.store e))
  | .ok cfg =>
    let x ← b.judgeItems cfg c (b.itemsOf c) {}
    let unwritten ← b.judgeWrite cfg c (x.1.flatMap fun q => q.2.events) x.2
    return x.1.map fun q => (q.1, q.2.report unwritten)

/-- The collections one after the other. -/
def judgeCollections : List String → Prog Storage (List ((BatchItem × Nat) × Option IngestErr))
  | [] => return []
  | c :: order => do
    let rs ← b.judgeCollection c
    let rest ← judgeCollections order
    return rs ++ rest

/-- The items of a batch, each with its result. -/
def judge : Prog Storage (List ((BatchItem × Nat) × Option IngestErr)) :=
  b.judgeCollections b.order

/-- The results, put in the order of the items. -/
def aligned (rs : List ((BatchItem × Nat) × Option IngestErr)) : List (Option IngestErr) :=
  (List.range b.items.length).map (assign (fun _ => none) (rs.map fun q => (q.1.2, q.2)))

/-! ### One program -/

section Same

variable {b cfg c} {r : Progress} {errs : Nat → Option IngestErr} {events : List (Event × Nat)}

/-- The fold after an item. -/
def foldAfter (errs : Nat → Option IngestErr) (events : List (Event × Nat)) (k : Nat)
    (x : Verdict × Progress) : Fold :=
  x.2.fold (assign errs [(k, x.1.report none)]) (events ++ x.1.events.map fun ev => (ev, k))

private theorem fail_fold (r : Progress) (k : Nat) (e : IngestErr) :
    (r.fold errs events).fail k e = foldAfter errs events k (.failed e, r) := by
  simp only [foldAfter, Verdict.events, map_nil, append_nil]
  rfl

private theorem planItem_fold (r : Progress) (it : BatchItem) (k : Nat)
    (cur : Option CurrentState) : b.planItem cfg c (r.fold errs events) it k cur =
      foldAfter errs events k (b.judgePlan cfg c r it k cur) := by
  have hnone : assign errs [(k, none)] = errs := update_eq_self k errs
  rw [planItem_eq, judgePlan, show (r.fold errs events).lastEv = r.lastEv from rfl]
  rcases b.outcome cfg c (r.lastEv it.command.entityID) it k cur
    with e | (_ | ⟨ev, newState, deleted⟩)
  · exact fail_fold r k e
  · simp only [foldAfter, Fold.settle, Verdict.events, Verdict.report, hnone, map_nil,
      append_nil]
  · simp only [foldAfter, Fold.settle, Fold.push, Verdict.events, Verdict.report, hnone]
    rfl

private theorem foldItem_fold (it : BatchItem) (k : Nat) :
    b.foldItem cfg c (r.fold errs events) it k =
      b.judgeItem cfg c r it k >>= fun x => .ret (foldAfter errs events k x) := by
  have hfail : ∀ r e, Prog.ret (I := Storage) ((r.fold errs events).fail k e) =
      .ret (foldAfter errs events k (.failed e, r)) :=
    fun r e => congrArg Prog.ret (fail_fold r k e)
  have hplan : ∀ r cur, Prog.ret (I := Storage) (b.planItem cfg c (r.fold errs events) it k cur) =
      .ret (foldAfter errs events k (b.judgePlan cfg c r it k cur)) :=
    fun r cur => congrArg Prog.ret (planItem_fold r it k cur)
  rw [foldItem, judgeItem, show (r.fold errs events).running = r.running from rfl]
  cases r.running it.command.entityID with
  | some cur => exact hplan r cur
  | none =>
    dsimp only
    rw [Prog.bind_assoc]
    refine congrArg _ (funext fun loaded => ?_)
    cases loaded with
    | error e => exact hfail r e
    | ok cur =>
      dsimp only
      split_ifs
      · rw [Prog.bind_assoc]
        refine congrArg _ (funext fun last => ?_)
        cases last with
        | error e => exact hfail { r with running := _ } e
        | ok last => exact hplan { r with running := _, lastEv := _ } cur
      · exact hplan { r with running := _ } cur

private theorem foldItems_fold (items : List (BatchItem × Nat)) :
    b.foldItems cfg c items (r.fold errs events) =
      b.judgeItems cfg c items r >>= fun x => .ret (x.2.fold
        (assign errs (x.1.map fun q => (q.1.2, q.2.report none)))
        (events ++ x.1.flatMap fun q => q.2.events.map fun ev => (ev, q.1.2))) := by
  induction items generalizing r errs events with
  | nil => simp [foldItems, judgeItems, assign]
  | cons p items ih =>
    rw [foldItems, judgeItems, foldItem_fold, Prog.bind_assoc, Prog.bind_assoc]
    refine congrArg _ (funext fun x => ?_)
    rw [Prog.ret_bind, foldAfter, ih, Prog.bind_assoc]
    refine congrArg _ (funext fun y => ?_)
    rw [append_assoc, ← assign_append]
    rfl

private theorem judgeItems_yields (items : List (BatchItem × Nat)) (r : Progress) :
    (b.judgeItems cfg c items r).Yields fun x => x.1.map Prod.fst = items := by
  induction items generalizing r with
  | nil => exact rfl
  | cons p items ih =>
    refine Prog.yields_bind (Prog.yields_true _) fun x _ => ?_
    refine Prog.yields_bind (ih x.2) fun y hy => ?_
    exact congrArg (List.cons p) hy

private theorem failAll_assign {vs : List ((BatchItem × Nat) × Verdict)}
    (hvs : (vs.map fun q => q.1.2).Nodup) (e : IngestErr) :
    failAll (assign errs (vs.map fun q => (q.1.2, q.2.report none)))
        ((vs.flatMap fun q => q.2.events.map fun ev => (ev, q.1.2)).map Prod.snd) e =
      assign errs (vs.map fun q => (q.1.2, q.2.report (some e))) := by
  have hpositions : ∀ unwritten, (vs.map fun q => (q.1.2, q.2.report unwritten)).map Prod.fst =
      vs.map fun q => q.1.2 := by
    intro unwritten
    rw [map_map]
    rfl
  have hnoted : ∀ unwritten, ∀ q ∈ vs,
      assign errs (vs.map fun q => (q.1.2, q.2.report unwritten)) q.1.2 =
        (q.2.report unwritten).or (errs q.1.2) := fun unwritten q hq =>
    assign_of_mem (hpositions unwritten ▸ hvs) (mem_map.mpr ⟨q, hq, rfl⟩)
  have hplanned : ∀ k, k ∈ (vs.flatMap fun q => q.2.events.map fun ev => (ev, q.1.2)).map Prod.snd ↔
      ∃ q ∈ vs, q.2.events ≠ [] ∧ q.1.2 = k := by
    intro k
    rw [map_flatMap, mem_flatMap]
    refine exists_congr fun q => and_congr_right fun _ => ?_
    cases q.2 with
    | failed | silent => simp [Verdict.events]
    | planned ev => simp [Verdict.events, eq_comm]
  funext k
  by_cases hk : k ∈ vs.map fun q => q.1.2
  · obtain ⟨q, hq, rfl⟩ := mem_map.mp hk
    have hown : (∃ q' ∈ vs, q'.2.events ≠ [] ∧ q'.1.2 = q.1.2) ↔ q.2.events ≠ [] := by
      refine ⟨?_, fun h => ⟨q, hq, h, rfl⟩⟩
      rintro ⟨q', hq', h, heq⟩
      rwa [inj_on_of_nodup_map hvs hq' hq heq] at h
    rw [failAll, hnoted none q hq, hnoted (some e) q hq]
    simp only [hplanned, hown]
    cases q.2 with
    | failed | silent | planned => rfl
  · rw [failAll, assign_of_notMem (hpositions none ▸ hk), assign_of_notMem (hpositions _ ▸ hk),
      if_neg]
    rw [hplanned]
    rintro ⟨q, hq, -, rfl⟩
    exact hk (mem_map_of_mem hq)

private theorem flush_fold {vs : List ((BatchItem × Nat) × Verdict)} (r : Progress)
    (hvs : (vs.map fun q => q.1.2).Nodup) :
    b.flush cfg c (r.fold (assign errs (vs.map fun q => (q.1.2, q.2.report none)))
        (vs.flatMap fun q => q.2.events.map fun ev => (ev, q.1.2))) =
      b.judgeWrite cfg c (vs.flatMap fun q => q.2.events) r >>= fun unwritten =>
        .ret (assign errs (vs.map fun q => (q.1.2, q.2.report unwritten))) := by
  have hevents : (vs.flatMap fun q => q.2.events.map fun ev => (ev, q.1.2)).map Prod.fst =
      vs.flatMap fun q => q.2.events := by
    simp [map_flatMap, comp_def]
  have hlength : (vs.flatMap fun q => q.2.events.map fun ev => (ev, q.1.2)).length =
      (vs.flatMap fun q => q.2.events).length := by
    rw [← hevents, length_map]
  have hnil : (vs.flatMap fun q => q.2.events.map fun ev => (ev, q.1.2)) = [] ↔
      (vs.flatMap fun q => q.2.events) = [] := by
    rw [← hevents, map_eq_nil_iff]
  rw [flush, judgeWrite]
  simp only [Progress.fold, hnil, hevents, hlength]
  split_ifs with hempty
  · rfl
  · rw [Prog.bind_assoc]
    refine congrArg _ (funext fun inserted => ?_)
    cases inserted with
    | error e => exact congrArg Prog.ret (failAll_assign hvs _)
    | ok u => simp only [Prog.bind_assoc, Prog.pure_eq, Prog.ret_bind]

private theorem assign_const (ks : List Nat) (e : IngestErr) :
    assign errs (ks.map fun k => (k, some e)) = failAll errs ks e := by
  induction ks generalizing errs with
  | nil =>
    funext i
    exact (if_neg not_mem_nil).symm
  | cons k ks ih =>
    rw [map_cons, assign_cons, ih]
    funext i
    by_cases hik : i = k
    · subst hik
      simp [failAll]
    · simp [failAll, hik]

/-- **A collection** notes what becomes of each of its items. -/
theorem batchCollection_eq : b.batchCollection c errs = b.judgeCollection c >>= fun rs =>
    .ret (assign errs (rs.map fun q => (q.1.2, q.2))) := by
  rw [batchCollection, judgeCollection, Prog.bind_assoc]
  refine congrArg _ (funext fun ensured => ?_)
  cases ensured with
  | error e =>
    dsimp only
    rw [← assign_const]
    simp only [Prog.pure_eq, Prog.ret_bind, map_map]
    rfl
  | ok cfg =>
    dsimp only
    have hstart : ({ errs } : Fold) = Progress.fold {} errs [] := rfl
    rw [hstart, foldItems_fold, Prog.bind_assoc, Prog.bind_assoc]
    refine (judgeItems_yields (b.itemsOf c) {}).bind_congr fun x hx => ?_
    have hnodup : (x.1.map fun q => q.1.2).Nodup := by
      have hpos : (x.1.map fun q => q.1.2) = (x.1.map Prod.fst).map Prod.snd := by
        rw [map_map]
        rfl
      rw [hpos, hx]
      exact b.positions_nodup c
    rw [Prog.ret_bind, nil_append, flush_fold x.2 hnodup, Prog.bind_assoc]
    refine congrArg _ (funext fun unwritten => ?_)
    simp only [Prog.pure_eq, Prog.ret_bind, map_map]
    rfl

private theorem batchCollections_eq (order : List String) :
    b.batchCollections order errs = b.judgeCollections order >>= fun rs =>
      .ret (assign errs (rs.map fun q => (q.1.2, q.2))) := by
  induction order generalizing errs with
  | nil => rfl
  | cons c order ih =>
    rw [batchCollections, judgeCollections, batchCollection_eq, Prog.bind_assoc, Prog.bind_assoc]
    refine congrArg _ (funext fun rs => ?_)
    rw [Prog.ret_bind, ih, Prog.bind_assoc]
    refine congrArg _ (funext fun rest => ?_)
    rw [Prog.pure_eq, Prog.ret_bind, map_append, assign_append]

end Same

/-- **A batch** returns what becomes of its items, in their order. -/
theorem ingestBatch_eq : b.ingestBatch = b.judge >>= fun rs => .ret (b.aligned rs) := by
  rw [ingestBatch, batchCollections_eq, Prog.bind_assoc, judge]
  rfl

/-! ### Every item once -/

private theorem judgeCollection_yields :
    (b.judgeCollection c).Yields fun rs => rs.map Prod.fst = b.itemsOf c := by
  refine Prog.yields_bind (Prog.yields_true _) fun ensured _ => ?_
  cases ensured with
  | error e =>
    change List.map Prod.fst (List.map _ _) = _
    rw [map_map]
    exact map_id _
  | ok cfg =>
    refine Prog.yields_bind (judgeItems_yields (b.itemsOf c) {}) fun x hx => ?_
    refine Prog.yields_bind (Prog.yields_true _) fun unwritten _ => ?_
    change List.map Prod.fst (List.map _ _) = _
    rw [map_map, ← hx]
    rfl

private theorem judgeCollections_yields (order : List String) :
    (b.judgeCollections order).Yields fun rs => rs.map Prod.fst = order.flatMap b.itemsOf := by
  induction order with
  | nil => exact rfl
  | cons c order ih =>
    refine Prog.yields_bind (b.judgeCollection_yields c) fun rs hrs => ?_
    refine Prog.yields_bind ih fun rest hrest => ?_
    change List.map Prod.fst (rs ++ rest) = _
    rw [map_append, hrs, hrest, flatMap_cons]

private theorem itemsOf_perm : (b.order.flatMap b.itemsOf).Perm b.items.zipIdx := by
  refine flatMap_filter_perm (fun p : BatchItem × Nat => p.1.command.collection)
    (nodup_eraseDups _) fun p hp => ?_
  rw [order, mem_eraseDups]
  exact mem_map_of_mem (mem_of_getElem? (mem_zipIdx_iff_getElem?.mp hp))

/-- **Every item has its own result.** Each item of a batch comes back exactly once, and its result
stands at its position. -/
theorem judge_yields : b.judge.Yields fun rs => (rs.map Prod.fst).Perm b.items.zipIdx ∧
    (b.aligned rs).length = b.items.length ∧ ∀ q ∈ rs, (b.aligned rs)[q.1.2]? = some q.2 := by
  refine Prog.Yields.mono (b.judgeCollections_yields b.order) fun rs hrs => ?_
  have hperm : (rs.map Prod.fst).Perm b.items.zipIdx := hrs ▸ b.itemsOf_perm
  refine ⟨hperm, by rw [aligned, length_map, length_range], fun q hq => ?_⟩
  have hnodup : ((rs.map fun q => (q.1.2, q.2)).map Prod.fst).Nodup := by
    have hpositions := (hperm.map Prod.snd).nodup_iff.mpr
      (by rw [zipIdx_map_snd]; exact nodup_range')
    rwa [map_map] at hpositions ⊢
  have hmem : q.1 ∈ b.items.zipIdx := hperm.mem_iff.mp (mem_map_of_mem hq)
  have hlt := (List.getElem?_eq_some_iff.mp (mem_zipIdx_iff_getElem?.mp hmem)).1
  rw [aligned, getElem?_map, getElem?_range hlt, Option.map_some,
    assign_of_mem hnodup (mem_map.mpr ⟨q, hq, rfl⟩), Option.or_none]

theorem ingestBatch_yields : b.ingestBatch.Yields fun errs => errs.length = b.items.length := by
  rw [ingestBatch_eq]
  exact Prog.yields_bind b.judge_yields fun rs hrs => hrs.2.1

end Batch

end Letopis
