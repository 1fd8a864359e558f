import Letopis.Runs.Report
import Letopis.Service.Replays
import Letopis.Writers.Versions

/-!
# A fast write after faults

A batch counts versions up from the current states that it loads, and a refresh of a current state
that fails is not made up for. So a fault may leave the current state of an entity behind its
history for good. A batch for such an entity plans its event under a version that is taken, the
unique index refuses it, and nothing that the batch does changes the store, so that the next try
fails in the same way.

Whatever has happened before, a `State` item by itself is stored if and only if the current state
has the version of the last event and the diff against it is not empty (`fast_write_iff`).
-/

namespace Letopis

open Interleaving List

/-! ### A batch of one item -/

namespace Batch

variable {b : Batch} {it : BatchItem} (hitems : b.items = [it])

include hitems

private theorem itemsOf_singleton : b.itemsOf it.command.collection = [(it, 0)] := by
  simp [itemsOf, hitems]

private theorem folded_singleton (db : Db) :
    let c := it.command.collection
    let chained := hasPreStore b.ing.pre (db c).config
    b.folded c (db c) (fun _ => none) (b.itemsOf c) =
      (Fold.loaded {} (db c) chained).settle 0 it.command.entityID chained
        (b.outcome (db c).config c (if chained then (db c).last it.command.entityID else none) it 0
          ((db c).current it.command.entityID)) := by
  intro c chained
  rw [folded, itemsOf_singleton hitems, foldl_cons, foldl_nil, step, planItem_eq]
  simp [Fold.loaded, c, chained]

private theorem idle_singleton (db : Db)
    (h : ∀ last, b.outcome (db it.command.collection).config it.command.collection last it 0
      ((db it.command.collection).current it.command.entityID) = .ok none) :
    b.planned db it.command.collection = [] ∧
      b.planErrs db it.command.collection 0 = none := by
  rw [planned, planErrs, folded_singleton hitems, h]
  exact ⟨rfl, rfl⟩

private theorem planned_singleton (db : Db)
    (h : ∀ last, ∃ ev newState deleted, b.outcome (db it.command.collection).config
      it.command.collection last it 0 ((db it.command.collection).current it.command.entityID) =
        .ok (some (ev, newState, deleted))) :
    ∃ ev, b.planned db it.command.collection = [(ev, 0)] ∧
      b.planErrs db it.command.collection 0 = none ∧ ev.entityID = it.command.entityID ∧
      ev.eventID = it.command.eventID ∧
      ev.version = db.curVersion it.command.collection it.command.entityID + 1 := by
  obtain ⟨ev, newState, deleted, hout⟩ :=
    h (if hasPreStore b.ing.pre (db it.command.collection).config
      then (db it.command.collection).last it.command.entityID else none)
  rw [planned, planErrs, folded_singleton hitems, hout]
  exact ⟨ev, rfl, rfl, outcome_event hout⟩

end Batch

namespace Batch

variable {b : Batch} {it : BatchItem} {k : Nat} {cfg : CollectionConfig} {c : String}
  {cur : Option CurrentState}

private theorem outcome_state_noChange (hkind : it.kind = .state)
    (hdiff : diff (.obj (baseState cur).1) (.obj it.command.state) ⟨cfg.arrayKeys⟩ = [])
    (last : Option Event) : b.outcome cfg c last it k cur = .ok none := by
  rw [outcome, hkind, planEvent]
  simp [hdiff]

/-- A `State` item with a difference comes to an event, if the hooks let it pass. -/
theorem outcome_state_event (hkind : it.kind = .state)
    (hdiff : diff (.obj (baseState cur).1) (.obj it.command.state) ⟨cfg.arrayKeys⟩ ≠ [])
    (hhooks : ∀ prev ev err, runPreStore cfg c prev b.ing.pre ev ≠ .error err)
    (last : Option Event) : ∃ ev newState deleted,
      b.outcome cfg c last it k cur = .ok (some (ev, newState, deleted)) := by
  rw [outcome, hkind, planEvent]
  simp only [hdiff, if_false]
  split_ifs
  · cases hrun : runPreStore cfg c ⟨last, cur⟩ b.ing.pre _ with
    | error err => exact absurd hrun (hhooks _ _ err)
    | ok ev => exact ⟨ev, _, _, rfl⟩
  · exact ⟨_, _, _, rfl⟩

private theorem alone_of_landed_eq_zero (srv : Server) (b : Batch) (db : Db) (c : String)
    (h : b.landed db c = 0) : (b.alone srv c (db c)).2 = db c := by
  rw [landed, planned] at h
  rw [alone, eval_batchCollection, eval_flush]
  generalize b.folded c (db c) (fun _ => none) (b.itemsOf c) = st at h ⊢
  obtain ⟨hstore, hok⟩ := eval_insertMany srv c (st.events.map Prod.fst) (db c)
  rw [h, take_zero, append_nil] at hstore
  rw [h] at hok
  split_ifs with hnil
  · rfl
  · dsimp only
    cases hres : ((insertMany c (st.events.map Prod.fst)).eval (serveIn srv) (db c)).1 with
    | error e => exact hstore
    | ok u =>
      have hlen := hok.mp hres
      rw [length_map, eq_comm, length_eq_zero_iff] at hlen
      exact absurd hlen hnil

end Batch

/-! ### A version that is taken -/

/-- In a gap-free history the version after that of the current state is free if and only if the
current state is up to date. -/
theorem Db.Sequenced.accepts_iff {db : Db} {c e : String} (h : db.Sequenced c e) {ev : Event}
    (he : ev.entityID = e) (hid : ev.eventID = "") (hv : ev.version = db.curVersion c e + 1) :
    (db c).Accepts ev ↔ db.curVersion c e = db.top c e := by
  have hle := h.curVersion_le_top
  constructor
  · intro hacc
    have hnext := h.version_eq he hacc.1 (by omega) (by omega)
    rw [← h.top_eq] at hnext
    omega
  · intro heq
    refine ⟨Db.versionFree_of_top_lt ?_, .inl hid⟩
    rw [he, hv, heq]
    exact Nat.lt_succ_self _

namespace Batch

variable {b : Batch} {it : BatchItem} (hitems : b.items = [it]) (srv : Server) (db : Db)

include hitems

/-- A batch of one item whose event is refused, or that has none, leaves the store as it was. -/
theorem store_of_landed_eq_zero (h : b.landed db it.command.collection = 0) :
    (b.ingestBatch.eval (serve srv) db).2 = db := by
  rw [(b.eval_ingestBatch srv db).1]
  funext c
  by_cases hc : c = it.command.collection
  · subst hc
    exact b.alone_of_landed_eq_zero srv db _ h
  · refine alone_of_not_mem srv (db c) ?_
    simp [order, hitems, hc]

private theorem report_of_landed {ev : Event}
    (hplan : b.planned db it.command.collection = [(ev, 0)])
    (herr : b.planErrs db it.command.collection 0 = none)
    (h : b.landed db it.command.collection = 1) :
    (b.ingestBatch.eval (serve srv) db).1 = [none] ∧
      ((b.ingestBatch.eval (serve srv) db).2 it.command.collection).events =
        (db it.command.collection).events ++ [ev] := by
  obtain ⟨hstore, hlen, hvalue⟩ := b.eval_ingestBatch srv db
  obtain ⟨hevents, hfull, -⟩ := alone_report srv b db it.command.collection
  rw [hplan] at hevents hfull
  constructor
  · have hfirst := hvalue 0 it (by simp [hitems])
    rw [hfull h, herr] at hfirst
    rw [hitems, length_singleton] at hlen
    obtain ⟨err, herrs⟩ := length_eq_one_iff.mp hlen
    rw [herrs] at hfirst ⊢
    rw [Option.some.inj hfirst]
  · rw [hstore, hevents, h]
    rfl

variable {db} in
/-- **A `State` item by itself**, in a store with gap-free histories. -/
theorem state_singleton_iff (hkind : it.kind = .state) (hid : it.command.eventID = "")
    (hseq : db.Sequenced it.command.collection it.command.entityID)
    (hhooks : ∀ prev ev err, runPreStore (db it.command.collection).config it.command.collection
      prev b.ing.pre ev ≠ .error err) :
    let coll := db it.command.collection
    let r := b.ingestBatch.eval (serve srv) db
    let writable := db.curVersion it.command.collection it.command.entityID =
        db.top it.command.collection it.command.entityID ∧
      diff (.obj (baseState (coll.current it.command.entityID)).1) (.obj it.command.state)
        ⟨coll.config.arrayKeys⟩ ≠ []
    ((r.1 = [none] ∧ ∃ ev, (r.2 it.command.collection).events = coll.events ++ [ev] ∧
        ev.entityID = it.command.entityID) ↔ writable) ∧ (¬ writable → r.2 = db) := by
  intro coll r writable
  have hrefused : b.landed db it.command.collection = 0 → ¬ writable →
      ((r.1 = [none] ∧ ∃ ev, (r.2 it.command.collection).events = coll.events ++ [ev] ∧
        ev.entityID = it.command.entityID) ↔ writable) ∧ (¬ writable → r.2 = db) := by
    intro hzero hnot
    have hsame : r.2 = db := store_of_landed_eq_zero hitems srv db hzero
    refine ⟨iff_of_false ?_ hnot, fun _ => hsame⟩
    rintro ⟨-, ev, hev, -⟩
    rw [hsame] at hev
    exact absurd (congrArg List.length hev) (by simp [coll])
  by_cases hdiff : diff (.obj (baseState (coll.current it.command.entityID)).1)
      (.obj it.command.state) ⟨coll.config.arrayKeys⟩ = []
  · have hplan := (idle_singleton hitems db (outcome_state_noChange hkind hdiff)).1
    exact hrefused (by simp [landed, hplan, Coll.inserted]) fun h => h.2 hdiff
  · obtain ⟨ev, hplan, herr, he, hevid, hv⟩ :=
      planned_singleton hitems db (outcome_state_event hkind hdiff hhooks)
    have hacc := hseq.accepts_iff he (hevid.trans hid) hv
    by_cases hfresh : db.curVersion it.command.collection it.command.entityID =
        db.top it.command.collection it.command.entityID
    · have hone : b.landed db it.command.collection = 1 := by
        simp [landed, hplan, Coll.inserted, hacc.mpr hfresh]
      obtain ⟨hreport, hevents⟩ := report_of_landed hitems srv db hplan herr hone
      exact ⟨iff_of_true ⟨hreport, ev, hevents, he⟩ ⟨hfresh, hdiff⟩,
        fun hnot => absurd ⟨hfresh, hdiff⟩ hnot⟩
    · have hnacc : ¬ (db it.command.collection).Accepts ev := fun h => hfresh (hacc.mp h)
      exact hrefused (by simp [landed, hplan, Coll.inserted, hnacc]) fun h => hfresh h.1

end Batch

/-- **A fast write after faults.** Whatever writes and batches have come one after the other, and
whatever storage calls of theirs have failed, a batch of one `State` item without an event id, none
of whose calls fails, stores its event and reports a success if and only if the current state of
the entity has the version of its last event and the diff is not empty. Otherwise it leaves
the store as it was. -/
theorem fast_write_iff (srv : Server) {db : Db} (hdb : db.Blank)
    (jobs : List (Job × (List (Obs Storage) → Call → Fault))) (ing : Ingester) (now : Nat → Stamps)
    (cmd : IngestCommand) (hid : cmd.eventID = "") :
    let store := ((Session.mk [] db).run (handle srv) (jobs.map fun j => (j.1.prog, j.2))).store
    let coll := store cmd.collection
    let r := (Batch.mk ing now [⟨.state, cmd⟩]).ingestBatch.eval (serve srv) store
    (∀ prev ev err, runPreStore coll.config cmd.collection prev ing.pre ev ≠ .error err) →
    let writable := store.curVersion cmd.collection cmd.entityID =
        store.top cmd.collection cmd.entityID ∧
      diff (.obj (baseState (coll.current cmd.entityID)).1) (.obj cmd.state)
        ⟨coll.config.arrayKeys⟩ ≠ []
    ((r.1 = [none] ∧ ∃ ev, (r.2 cmd.collection).events = coll.events ++ [ev] ∧
        ev.entityID = cmd.entityID) ↔ writable) ∧ (¬ writable → r.2 = store) := by
  intro store coll r hhooks
  have hitems : (Batch.mk ing now [⟨.state, cmd⟩]).items = [⟨.state, cmd⟩] := rfl
  exact Batch.state_singleton_iff hitems srv rfl hid
    (Job.sequenced_run srv hdb.sequenced jobs _ _) hhooks

/-- A refresh whose reply is lost after it has landed does no harm: the next fast write is
stored. -/
theorem fast_write_iff_lost_reply :
    let jobs : List (Job × (List (Obs Storage) → Call → Fault)) :=
      [(.write (.ofState "deals" "42" [("won", .bool false)]), fun _ call =>
        match call with
        | .upsertCurrent _ _ => .after
        | _ => .none)]
    let cmd : IngestCommand :=
      { collection := "deals", entityID := "42", state := [("won", .bool true)] }
    let store := ((Session.mk [] fun _ => {}).run (handle .mongo)
      (jobs.map fun j => (j.1.prog, j.2))).store
    ((Batch.mk {} (fun _ => ⟨⟨2⟩, ⟨2⟩⟩) [⟨.state, cmd⟩]).ingestBatch.eval (serve .mongo)
      store).1 = [none] := by
  intro jobs cmd store
  have hblank : Db.Blank fun _ => {} := fun _ => ⟨rfl, fun _ => rfl⟩
  refine (((fast_write_iff .mongo hblank jobs {} (fun _ => ⟨⟨2⟩, ⟨2⟩⟩) cmd rfl ?_).1.mpr ?_).1)
  · intro prev ev err h
    cases h
  · decide +kernel

/-- A batch whose refresh fails reports a success. From then on fast writes to the deal fail, and
leave the store as it was. -/
theorem failed_refresh_bars_fast_writes :
    let batch (won : Bool) : Batch := ⟨{}, fun _ => ⟨⟨2⟩, ⟨2⟩⟩,
      [⟨.state, { collection := "deals", entityID := "42", state := [("won", .bool won)] }⟩]⟩
    let first := (batch false).ingestBatch.exec (handle .mongo) (fun _ call =>
      match call with
      | .upsertCurrent _ _ => .before
      | _ => .none) [] fun _ => {}
    let second := (batch true).ingestBatch.eval (serve .mongo) first.store
    let third := (batch true).ingestBatch.eval (serve .mongo) second.2
    first.value = [none] ∧ second.1.map Option.isSome = [true] ∧
      third.1.map Option.isSome = [true] ∧
      (second.2 "deals").events = (first.store "deals").events ∧
      (third.2 "deals").events = (first.store "deals").events := by
  intro batch first second third
  refine ⟨?_, ?_, ?_, ?_, ?_⟩ <;> decide +kernel

end Letopis
