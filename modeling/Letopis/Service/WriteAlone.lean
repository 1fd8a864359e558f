import Letopis.Service.BatchAlone
import Letopis.Service.IngestTrace

/-!
# A write on its own collection

What a single write comes to when nobody else touches the store while it runs and no call fails,
as a function of its collection (`Batch.eval_write`). The write is taken as an item of a batch:
it stores exactly the event that the batch would plan for the item, had the batch loaded the
entity's last event and current state from the collection as it now is. For this the current
state has to be up to date (its version is that of the last event), because a batch counts
versions up from there while a single write asks for the last stored event.
-/

namespace Letopis

open Interleaving List

/-! ### Collections -/

namespace Coll

/-- The highest version stored for an entity, or zero. -/
def top (coll : Coll) (e : String) : Nat := ((coll.last e).map Event.version).getD 0

/-- The current state of the entity is that of its last event. -/
def UpToDate (coll : Coll) (e : String) : Prop := (baseState (coll.current e)).2 = coll.top e

instance (coll : Coll) (e : String) : Decidable (coll.UpToDate e) :=
  inferInstanceAs (Decidable (_ = _))

/-- No stored event has the id. -/
def Fresh (coll : Coll) (id : String) : Prop := id = "" ∨ ∀ x ∈ coll.events, x.eventID ≠ id

instance (coll : Coll) (id : String) : Decidable (coll.Fresh id) :=
  inferInstanceAs (Decidable (_ ∨ _))

/-- Append an event. -/
def append (coll : Coll) (ev : Event) : Coll := { coll with events := coll.events ++ [ev] }

/-- Replace the current state of an entity. -/
def upsert (coll : Coll) (st : CurrentState) : Coll :=
  { coll with current := Function.update coll.current st.entityID (some st) }

/-- Save a snapshot if it is due. -/
def keep (enabled : Bool) (interval : Int) (coll : Coll) (snap : Snapshot) : Coll :=
  if enabled && shouldSnapshot snap.version interval then
    { coll with
      snapshots := (coll.snapshots.filter fun s =>
        ¬ (s.entityID = snap.entityID ∧ s.version = snap.version)) ++ [snap] }
  else coll

variable {coll : Coll} {e : String} {ev : Event}

theorem last_append_self (he : ev.entityID = e) (hv : coll.top e < ev.version) :
    (coll.append ev).last e = some ev := by
  have hfilter : ([ev].filter fun x => x.entityID = e) = [ev] := by simp [he]
  rw [last, append, filter_append, hfilter, argmax_concat]
  rw [top, last] at hv
  cases hmax : (coll.events.filter fun ev => ev.entityID = e).argmax Event.version with
  | none => rfl
  | some x =>
    rw [hmax] at hv
    exact if_pos hv

theorem last_append_of_ne (he : ev.entityID ≠ e) : (coll.append ev).last e = coll.last e := by
  rw [last, last, append, filter_append, filter_singleton]
  simp [he]

theorem top_append_self (he : ev.entityID = e) (hv : coll.top e < ev.version) :
    (coll.append ev).top e = ev.version := by
  rw [top, last_append_self he hv]
  rfl

theorem top_append_of_ne (he : ev.entityID ≠ e) : (coll.append ev).top e = coll.top e := by
  rw [top, top, last_append_of_ne he]

private theorem version_le_top {x : Event} (hx : x ∈ coll.events) (he : x.entityID = e) :
    x.version ≤ coll.top e := by
  have hmem : x ∈ coll.events.filter fun ev => ev.entityID = e :=
    mem_filter.mpr ⟨hx, by simp [he]⟩
  rw [top, last]
  cases hmax : (coll.events.filter fun ev => ev.entityID = e).argmax Event.version with
  | none =>
    rw [argmax_eq_none] at hmax
    rw [hmax] at hmem
    exact absurd hmem not_mem_nil
  | some y => exact le_of_mem_argmax hmem hmax

variable {srv : Server} {c : String}

theorem serveIn_insertEvent (hv : coll.top ev.entityID < ev.version) (hid : coll.Fresh ev.eventID) :
    serveIn srv (.insertEvent c ev) coll = (.ok (), coll.append ev) := by
  have hfree : Db.VersionFree (fun _ => coll) c ev := by
    rintro x hx ⟨hxe, hxv⟩
    have hle : x.version ≤ coll.top ev.entityID := version_le_top hx hxe
    omega
  have hidfree : Db.EventIDFree (fun _ => coll) c ev := hid
  simp [serveIn, serve, hfree, hidfree, Db.append, append, Call.collection]

end Coll

private theorem Batch.nextVersion_eq (cur : Option CurrentState) :
    Batch.nextVersion cur = (baseState cur).2 + 1 := by
  cases cur with
  | none => rfl
  | some cur =>
    rw [Batch.nextVersion, baseState]
    split_ifs <;> rfl

/-! ### Hooks and versions -/

/-- The event under a version and a stored time. -/
def Event.stamped (ev : Event) (version : Nat) (stored : Time) : Event :=
  { ev with version, tsStored := stored }

private theorem perform_stamped (ev : Event) (v : Nat) (t : Time) (edits : List DraftEdit) :
    edits.foldl DraftEdit.perform (ev.stamped v t) =
      (edits.foldl DraftEdit.perform ev).stamped v t := by
  induction edits generalizing ev with
  | nil => rfl
  | cons edit edits ih =>
    have hedit : edit.perform (ev.stamped v t) = (edit.perform ev).stamped v t := by
      cases edit <;> rfl
    rw [foldl_cons, foldl_cons, hedit, ih]

private theorem runPreStore_stamped (cfg : CollectionConfig) (c : String) (prev : EntityView)
    (pre : List PreStorePlugin) (ev : Event) (v : Nat) (t : Time) :
    runPreStore cfg c prev pre (ev.stamped v t) =
      (runPreStore cfg c prev pre ev).map fun ev' => ev'.stamped v t := by
  induction pre generalizing ev with
  | nil => rfl
  | cons p pre ih =>
    have hdraft : newDraft c (ev.stamped v t) = newDraft c ev := rfl
    simp only [runPreStore, hdraft, perform_stamped, ih]
    split
    · rfl
    · split
      · rfl
      · split_ifs <;> rfl

/-! ### The calls of a write -/

section

variable {P : Call → Prop} {c : String} (hlast : ∀ e, P (.lastVersion c e))
  (hinsert : ∀ ev, P (.insertEvent c ev)) (hupsert : ∀ st, P (.upsertCurrent c st))

include hlast hinsert

private theorem calls_appendLoop (stored : Time) (n : Nat) (ev : Event) :
    (appendLoop c stored n ev).Calls P := by
  induction n generalizing ev with
  | zero => trivial
  | succ n ih =>
    refine Prog.calls_ask_bind (hlast _) fun r => ?_
    cases r with
    | error e => trivial
    | ok last =>
      refine Prog.calls_ask_bind (hinsert _) fun r => ?_
      cases r with
      | ok u => trivial
      | error e =>
        dsimp only
        split_ifs
        · exact ih _
        · trivial
        · trivial

include hupsert

theorem calls_commitEvent {cmd : IngestCommand} (hc : cmd.collection = c) (stored : Time)
    (ev : Event) (newState : Fields) (deleted : Bool) :
    (commitEvent stored cmd ev newState deleted).Calls P := by
  subst hc
  refine Prog.calls_bind (calls_appendLoop hlast hinsert _ _ _) fun r => ?_
  cases r with
  | error e => trivial
  | ok ev =>
    refine Prog.calls_ask_bind (hupsert _) fun r => ?_
    cases r <;> trivial

end

private theorem calls_prepare (cmd : IngestCommand) :
    (prepare cmd).Calls (Call.For cmd.collection) := by
  refine Prog.calls_ask_bind rfl fun r => ?_
  cases r with
  | error e => trivial
  | ok cfg =>
    refine Prog.calls_bind (calls_load _ _) fun r => ?_
    cases r <;> trivial

private theorem calls_preStore (ing : Ingester) (cfg : CollectionConfig) (cmd : IngestCommand)
    (ev : Event) (cur : Option CurrentState) :
    (preStore ing cfg cmd ev cur).Calls (Call.For cmd.collection) := by
  rw [preStore]
  split_ifs
  · refine Prog.calls_bind (calls_lastEvent _ _) fun r => ?_
    cases r <;> trivial
  · trivial

theorem Write.calls_prog (w : Write) : w.prog.Calls (Call.For w.coll) := by
  refine Prog.calls_bind (calls_prepare w.cmd) fun r => ?_
  rcases r with e | ⟨cfg, cur⟩
  · trivial
  · dsimp only
    split_ifs
    · rcases planEvent w.now.received cfg w.kind w.cmd cur with e | (_ | ⟨ev, newState, deleted⟩)
      · trivial
      · trivial
      · refine Prog.calls_bind (calls_preStore _ _ _ _ _) fun r => ?_
        cases r with
        | error e => trivial
        | ok ev =>
          refine Prog.calls_bind (calls_commitEvent (fun _ => rfl) (fun _ => rfl) (fun _ => rfl)
            rfl _ _ _ _) fun r => ?_
          rcases r with e | ev
          · cases e <;> trivial
          · exact Prog.calls_bind (calls_buildSnapshot _ (fun _ => rfl) _ _) fun _ => trivial
    · trivial

/-! ### A single write -/

/-- An item of a batch as a write of its own. -/
def Batch.write (b : Batch) (it : BatchItem) (k : Nat) : Write :=
  ⟨b.ing, b.now k, it.kind, it.command⟩

/-- The collection after a write has stored its event. -/
def Coll.commit (coll : Coll) (snapshots : Bool) (ev : Event) (newState : Fields)
    (deleted : Bool) : Coll :=
  ((coll.append ev).upsert ⟨ev.entityID, ev.version, ev.tsReceived, deleted, newState⟩).keep
    snapshots coll.config.snapshotInterval
    ⟨ev.entityID, ev.version, ev.tsReceived, deleted, newState⟩

namespace Batch

variable (srv : Server) (b : Batch) (it : BatchItem) (k : Nat) (coll : Coll)

/-- What the item is planned to do on the collection as it is. -/
def plan : Except IngestErr (Option (Event × Fields × Bool)) :=
  b.outcome coll.config it.command.collection (coll.last it.command.entityID) it k
    (coll.current it.command.entityID)

/-- What a single write makes of its plan: its result and the collection it leaves. -/
def enact : Except IngestErr (Option (Event × Fields × Bool)) →
    Except IngestErr IngestResult × Coll
  | .error e => (.error e, coll)
  | .ok none =>
    let version := (baseState (coll.current it.command.entityID)).2
    (.ok { entityID := it.command.entityID, version, noChanges := true }, coll)
  | .ok (some (ev, newState, deleted)) =>
    (.ok { entityID := it.command.entityID, version := ev.version,
           changesCount := ev.changes.length, op := some ev.op },
      coll.commit b.ing.snapshots ev newState deleted)

theorem eval_buildSnapshot (enabled : Bool) (c : String) (snap : Snapshot) (interval : Int) :
    (buildSnapshot enabled c snap interval).eval (serveIn srv) coll =
      ((), coll.keep enabled interval snap) := by
  have hserve : serveIn srv (.saveSnapshot c snap) coll = (.ok (), { coll with
      snapshots := (coll.snapshots.filter fun s =>
        ¬ (s.entityID = snap.entityID ∧ s.version = snap.version)) ++ [snap] }) := by
    simp [serveIn, serve, Db.save, Call.collection]
  rw [buildSnapshot, Coll.keep]
  split_ifs with h
  · rw [Prog.eval_bind, Prog.eval_ask, hserve]
    rfl
  · rfl

variable {srv coll} in
private theorem eval_appendEvent {c : String} {stored : Time} {ev : Event}
    (hts : ev.tsStored = .zero) (hid : coll.Fresh ev.eventID) :
    (appendEvent c stored ev).eval (serveIn srv) coll =
      (.ok (ev.stamped (coll.top ev.entityID + 1) stored),
        coll.append (ev.stamped (coll.top ev.entityID + 1) stored)) := by
  have hat : ev.at stored (coll.top ev.entityID) =
      ev.stamped (coll.top ev.entityID + 1) stored := by
    rw [Event.at, hts]
    rfl
  have hlast : serveIn srv (.lastVersion c ev.entityID) coll =
      (.ok (coll.top ev.entityID), coll) := rfl
  have hins : serveIn srv (.insertEvent c (ev.stamped (coll.top ev.entityID + 1) stored)) coll =
      (.ok (), coll.append (ev.stamped (coll.top ev.entityID + 1) stored)) :=
    Coll.serveIn_insertEvent (Nat.lt_succ_self _) hid
  have hn : maxAppendRetries = 15 + 1 := rfl
  rw [appendEvent, hn, appendLoop, Prog.eval_bind, Prog.eval_ask, hlast]
  dsimp only
  rw [Prog.eval_bind, Prog.eval_ask, hat, hins]
  rfl

private theorem eval_prepare (cmd : IngestCommand) : (prepare cmd).eval (serveIn srv) coll =
    (.ok (coll.config, coll.current cmd.entityID), coll) := by
  have hserve : serveIn srv (.ensureCollection cmd.collection) coll = (.ok coll.config, coll) := rfl
  rw [prepare, Prog.eval_bind, Prog.eval_ask, hserve]
  simp only [Prog.eval_bind, eval_load, Prog.eval_pure]

private theorem eval_preStore (ing : Ingester) (cfg : CollectionConfig) (cmd : IngestCommand)
    (ev : Event)
    (cur : Option CurrentState) : (preStore ing cfg cmd ev cur).eval (serveIn srv) coll =
      (if hasPreStore ing.pre cfg then
        runPreStore cfg cmd.collection ⟨coll.last cmd.entityID, cur⟩ ing.pre ev
      else .ok ev, coll) := by
  rw [preStore]
  split_ifs
  · simp only [Prog.eval_bind, eval_lastEvent, Prog.eval_pure]
  · rfl

private theorem eval_commitEvent (stored : Time) (cmd : IngestCommand) (ev : Event)
    (newState : Fields)
    (deleted : Bool) (hts : ev.tsStored = .zero) (he : ev.entityID = cmd.entityID)
    (hid : coll.Fresh ev.eventID) :
    let stampedEv := ev.stamped (coll.top cmd.entityID + 1) stored
    (commitEvent stored cmd ev newState deleted).eval (serveIn srv) coll =
      (.ok stampedEv, (coll.append stampedEv).upsert
        ⟨cmd.entityID, stampedEv.version, stampedEv.tsReceived, deleted, newState⟩) := by
  intro stampedEv
  have hserve : ∀ st coll, serveIn srv (.upsertCurrent cmd.collection st) coll =
      (.ok (), coll.upsert st) := by
    intro st coll
    simp [serveIn, serve, Db.upsert, Coll.upsert, Call.collection]
  rw [commitEvent, Prog.eval_bind, eval_appendEvent hts hid, he]
  dsimp only
  rw [Prog.eval_bind, Prog.eval_ask, hserve]
  rfl

/-- What an item is planned to do is what its write decides, under the next version. -/
theorem outcome_eq (cfg : CollectionConfig) (c : String) (last : Option Event)
    (cur : Option CurrentState) : b.outcome cfg c last it k cur =
    match planEvent (b.now k).received cfg it.kind it.command cur with
    | .error e => .error e
    | .ok .noChange => .ok none
    | .ok (.write ev newState deleted) =>
      (if hasPreStore b.ing.pre cfg then runPreStore cfg c ⟨last, cur⟩ b.ing.pre ev
        else .ok ev).map fun ev =>
          some (ev.stamped ((baseState cur).2 + 1) (b.now k).stored, newState, deleted) := by
  rw [outcome]
  rcases planEvent (b.now k).received cfg it.kind it.command cur
    with e | (_ | ⟨ev, newState, deleted⟩)
  · rfl
  · rfl
  · have hstamped : { ev with version := nextVersion cur, tsStored := (b.now k).stored } =
        ev.stamped ((baseState cur).2 + 1) (b.now k).stored := by
      rw [nextVersion_eq]
      rfl
    dsimp only
    rw [hstamped, runPreStore_stamped]
    split_ifs
    · cases runPreStore cfg c ⟨last, cur⟩ b.ing.pre ev <;> rfl
    · rfl

variable {b it k} in
theorem outcome_event {cfg : CollectionConfig} {c : String} {last : Option Event}
    {cur : Option CurrentState} {ev : Event} {newState : Fields} {deleted : Bool}
    (h : b.outcome cfg c last it k cur = .ok (some (ev, newState, deleted))) :
    ev.entityID = it.command.entityID ∧ ev.eventID = it.command.eventID ∧
      ev.version = (baseState cur).2 + 1 := by
  rw [outcome_eq] at h
  split at h
  · cases h
  · cases h
  · next planned _ _ hplan =>
    obtain ⟨op, changes, rfl⟩ := planEvent_write hplan
    split_ifs at h
    · cases hrun : runPreStore cfg c ⟨last, cur⟩ b.ing.pre
        (buildEvent (b.now k).received it.command op changes) with
      | error e =>
        rw [hrun] at h
        cases h
      | ok ev' =>
        obtain ⟨m, i, rfl⟩ := annotates_runPreStore hrun
        rw [hrun] at h
        cases h
        exact ⟨rfl, rfl, rfl⟩
    · cases h
      exact ⟨rfl, rfl, rfl⟩

variable {b it k coll} in
/-- **A single write on its own** does what the item is planned to do. -/
theorem eval_write (hlock : it.command.expectedVersion = none)
    (hcur : coll.UpToDate it.command.entityID) (hid : coll.Fresh it.command.eventID) :
    (b.write it k).prog.eval (serveIn srv) coll = b.enact it coll (b.plan it k coll) := by
  rw [Write.prog, applyOne, Prog.eval_bind, plan, outcome_eq]
  simp only [write, eval_prepare, hlock, versionMatches, not_true_eq_false, if_false]
  cases hplan : planEvent (b.now k).received coll.config it.kind it.command
    (coll.current it.command.entityID) with
  | error e => rfl
  | ok plan =>
    cases plan with
    | noChange => rfl
    | write ev newState deleted =>
      obtain ⟨op, changes, hev⟩ := planEvent_write hplan
      simp only [Prog.eval_bind, eval_preStore]
      generalize hhooked : (if hasPreStore b.ing.pre coll.config then
        runPreStore coll.config it.command.collection
          ⟨coll.last it.command.entityID, coll.current it.command.entityID⟩ b.ing.pre ev
        else .ok ev) = hooked
      cases hooked with
      | error e => rfl
      | ok ev' =>
        have hann : ev.Annotates ev' := by
          split_ifs at hhooked
          · exact annotates_runPreStore hhooked
          · cases hhooked
            exact ⟨_, _, rfl⟩
        obtain ⟨m, i, rfl⟩ := hann
        subst hev
        let hooked : Event := { buildEvent (b.now k).received it.command op changes with
          metadata := m, integrity := i }
        have hcommit := eval_commitEvent srv coll (b.now k).stored it.command hooked newState
          deleted rfl rfl hid
        simp only [hooked] at hcommit
        simp only [hcommit, eval_buildSnapshot, Prog.eval_bind, Prog.eval_pure]
        rw [Coll.UpToDate] at hcur
        simp only [enact, Except.map, hcur, Coll.commit]
        rfl

end Batch

end Letopis
