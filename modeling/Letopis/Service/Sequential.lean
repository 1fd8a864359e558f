import Letopis.Interleaving.Eval
import Letopis.Service.IngestTrace
import Letopis.Storage.Frame

/-!
# A write on its own

What a write comes to when nobody else touches the store while it runs. Its reads, its plan and
its hooks amount to one decision, a function of the store (`Write.decision`): an error, nothing
to do, or an event with the state it leads to. `Write.wp` lists what then happens to the store
(`Write.Effect`), for any set `C` of faults that its calls may meet.
-/

namespace Letopis

open Interleaving

theorem read_wp {srv : Server} {C : Call → Fault → Prop} {α : Type}
    {Q : α → List (Obs Storage) → Db → Prop} {call : Call} {k : Storage.Reply call → Prog Storage α}
    {seen : List (Obs Storage)} {db : Db} (hread : (serve srv call db).2 = db)
    (hok : Wp (handle srv) C Q (k (serve srv call db).1) (⟨call, (serve srv call db).1⟩ :: seen) db)
    (hfail : ∀ f, C call f → f ≠ .none →
      Wp (handle srv) C Q (k (.error .failed)) (⟨call, .error .failed⟩ :: seen) db) :
    Wp (handle srv) C Q (Prog.ask call >>= k) seen db := by
  refine Wp.ask_bind_iff.mpr fun f hf => ?_
  cases f with
  | none => exact Eq.substr hread hok
  | before => exact hfail .before hf nofun
  | after => exact Eq.substr hread (hfail .after hf nofun)

/-- An insertion under a free version: it lands, is refused for its event id, fails, or lands with
its reply lost. -/
theorem handle_insert (srv : Server) {c : String} {x : Event} {db : Db} (f : Fault)
    (hv : db.VersionFree c x) :
    (db.EventIDFree c x ∧ handle srv (.insertEvent c x) f db = (.ok (), db.append c x)) ∨
    (¬ db.EventIDFree c x ∧ handle srv (.insertEvent c x) f db =
      (.error (.dupKey (srv.dupText c .eventID x)), db)) ∨
    (f ≠ .none ∧ handle srv (.insertEvent c x) f db = (.error .failed, db)) ∨
    (f = .after ∧ db.EventIDFree c x ∧
      handle srv (.insertEvent c x) f db = (.error .failed, db.append c x)) := by
  by_cases hid : db.EventIDFree c x
  · cases f with
    | none => exact .inl ⟨hid, by simp [handle, serve, hv, hid]⟩
    | before => exact .inr (.inr (.inl ⟨by simp, rfl⟩))
    | after => exact .inr (.inr (.inr ⟨rfl, hid, by simp [handle, serve, hv, hid]⟩))
  · cases f with
    | none => exact .inr (.inl ⟨hid, by simp [handle, serve, hv, hid]⟩)
    | before => exact .inr (.inr (.inl ⟨by simp, rfl⟩))
    | after => exact .inr (.inr (.inl ⟨by simp, by simp [handle, serve, hv, hid]⟩))

/-- The server's error about the event id of an event reads like one about its version. -/
def Server.Confuses (srv : Server) (c : String) (ev : Event) : Bool :=
  isDupKeyOn (.dupKey (srv.dupText c .eventID ev)) .eventVersion

theorem NoUpsert.cons {seen : List (Obs Storage)} {c : String} (h : NoUpsert seen c)
    {o : Obs Storage} (ho : ∀ st r, o ≠ ⟨.upsertCurrent c st, r⟩) : NoUpsert (o :: seen) c :=
  fun st r hst => h st r (hst.of_cons (ho st r))

namespace Write

variable (w : Write) (srv : Server) (C : Call → Fault → Prop) (db : Db)

/-- What the hooks make of a planned event, with the last event as it is stored. -/
def hooked (planned : Event) : Except IngestErr Event :=
  let cfg := (db w.coll).config
  if hasPreStore w.ing.pre cfg then
    runPreStore cfg w.coll
      ⟨(db.hist w.coll w.eid).argmax Event.version, (db w.coll).current w.eid⟩ w.ing.pre planned
  else .ok planned

/-- What the write decides to do: fail, do nothing, or append an event and refresh the current
state to the state and flag it leads to. -/
def decision : Except IngestErr (Option (Event × Fields × Bool)) :=
  let cur := (db w.coll).current w.eid
  if ¬ versionMatches w.cmd.expectedVersion (baseState cur).2 then .error .versionConflict
  else
    match planEvent w.now.received (db w.coll).config w.kind w.cmd cur with
    | .error e => .error e
    | .ok .noChange => .ok none
    | .ok (.write planned newState deleted) =>
      match w.hooked db planned with
      | .error e => .error e
      | .ok ev => .ok (some (ev, newState, deleted))

/-- The event as it is inserted: under the next version. -/
def next (ev : Event) : Event := ev.at w.now.stored (db.top w.coll w.eid)

/-- The current state that follows. -/
def refreshed (ev : Event) (newState : Fields) (deleted : Bool) : CurrentState :=
  ⟨w.eid, (w.next db ev).version, ev.tsReceived, deleted, newState⟩

/-- The snapshot that follows. -/
def snapshot (ev : Event) (newState : Fields) (deleted : Bool) : Snapshot :=
  ⟨w.eid, (w.next db ev).version, ev.tsReceived, deleted, newState⟩

/-- What becomes of a write without interference: its result, the current states it has written
and the store it leaves. -/
inductive Effect : Except IngestErr IngestResult → List (Obs Storage) → Db → Prop
  | failed {e seen} (fault : ∃ call f, C call f ∧ f ≠ .none) (none : NoUpsert seen w.coll) :
      Effect (.error e) seen db
  | undecided {e seen} (decision : w.decision db = .error e) (none : NoUpsert seen w.coll) :
      Effect (.error e) seen db
  | noChange {seen} (decision : w.decision db = .ok none) (none : NoUpsert seen w.coll) :
      Effect (.ok { entityID := w.eid, version := (baseState ((db w.coll).current w.eid)).2,
                    noChanges := true }) seen db
  | duplicate {ev newState deleted seen}
      (decision : w.decision db = .ok (some (ev, newState, deleted)))
      (taken : ¬ db.EventIDFree w.coll (w.next db ev)) (none : NoUpsert seen w.coll) :
      Effect (if srv.Confuses w.coll (w.next db ev) then .error .versionConflict
        else .ok { entityID := w.eid, version := (baseState ((db w.coll).current w.eid)).2,
                   deduplicated := true }) seen db
  | lost {ev newState deleted seen r}
      (decision : w.decision db = .ok (some (ev, newState, deleted)))
      (free : db.EventIDFree w.coll (w.next db ev))
      (fault : C (.insertEvent w.coll (w.next db ev)) .after) (none : NoUpsert seen w.coll) :
      Effect (.error r) seen (db.append w.coll (w.next db ev))
  | stale {ev newState deleted seen r db'}
      (decision : w.decision db = .ok (some (ev, newState, deleted)))
      (free : db.EventIDFree w.coll (w.next db ev))
      (fault : ∃ f, C (.upsertCurrent w.coll (w.refreshed db ev newState deleted)) f ∧ f ≠ .none)
      (store : db' = db.append w.coll (w.next db ev) ∨
        db' = (db.append w.coll (w.next db ev)).upsert w.coll
          (w.refreshed db ev newState deleted)) :
      Effect (.error r) seen db'
  | stored {ev newState deleted seen db'}
      (decision : w.decision db = .ok (some (ev, newState, deleted)))
      (free : db.EventIDFree w.coll (w.next db ev))
      (upsert : Saw seen (.upsertCurrent w.coll (w.refreshed db ev newState deleted)) (.ok ()))
      (only : ∀ st r, Saw seen (.upsertCurrent w.coll st) r →
        st = w.refreshed db ev newState deleted)
      (store : db' = (db.append w.coll (w.next db ev)).upsert w.coll
          (w.refreshed db ev newState deleted) ∨
        db' = ((db.append w.coll (w.next db ev)).upsert w.coll
          (w.refreshed db ev newState deleted)).save w.coll (w.snapshot db ev newState deleted)) :
      Effect (.ok { entityID := w.eid, version := (w.next db ev).version,
                    changesCount := ev.changes.length, op := some ev.op }) seen db'

/-! ### The append -/

/-- What becomes of an append without interference. -/
inductive AppendEffect (ev : Event) : Except IngestErr Event → List (Obs Storage) → Db → Prop
  | stored {seen} (free : db.EventIDFree w.coll (w.next db ev)) (none : NoUpsert seen w.coll) :
      AppendEffect ev (.ok (w.next db ev)) seen (db.append w.coll (w.next db ev))
  | duplicate {seen} (taken : ¬ db.EventIDFree w.coll (w.next db ev))
      (none : NoUpsert seen w.coll) :
      AppendEffect ev (.error (if srv.Confuses w.coll (w.next db ev) then .versionConflict
        else .duplicateEvent)) seen db
  | failed {e seen} (error : e ≠ .duplicateEvent) (fault : ∃ call f, C call f ∧ f ≠ .none)
      (none : NoUpsert seen w.coll) : AppendEffect ev (.error e) seen db
  | lost {e seen} (error : e ≠ .duplicateEvent) (free : db.EventIDFree w.coll (w.next db ev))
      (fault : C (.insertEvent w.coll (w.next db ev)) .after) (none : NoUpsert seen w.coll) :
      AppendEffect ev (.error e) seen (db.append w.coll (w.next db ev))

variable {w srv C db} {seen : List (Obs Storage)}

variable {ev : Event}

private theorem next_versionFree (he : ev.entityID = w.eid) :
    db.VersionFree w.coll (w.next db ev) := by
  refine Db.versionFree_of_top_lt ?_
  have hnext : (w.next db ev).entityID = w.eid := he
  rw [hnext]
  exact Nat.lt_succ_self _

private theorem appendLoop_wp {x : Event} (he : ev.entityID = w.eid) (n : Nat)
    (hx : x.entityID = ev.entityID) (hat : x.at w.now.stored (db.top w.coll w.eid) = w.next db ev)
    (hnone : NoUpsert seen w.coll)
    (hn : n = 0 → ¬ db.EventIDFree w.coll (w.next db ev) ∧ srv.Confuses w.coll (w.next db ev)) :
    Wp (handle srv) C (w.AppendEffect srv C db ev) (appendLoop w.coll w.now.stored n x) seen
      db := by
  induction n generalizing x seen with
  | zero =>
    obtain ⟨htaken, hconf⟩ := hn rfl
    have hend : w.AppendEffect srv C db ev _ _ _ := .duplicate htaken hnone
    rwa [if_pos hconf] at hend
  | succ n ih =>
    rw [appendLoop, hx, he]
    have hnone' : ∀ r, NoUpsert (⟨.lastVersion w.coll w.eid, r⟩ :: seen) w.coll :=
      fun r => hnone.cons (by simp)
    refine read_wp rfl ?_ fun f hf hfault => ?_
    · dsimp only [serve]
      rw [hat]
      refine Wp.ask_bind_iff.mpr fun f hf => ?_
      have hnone'' : ∀ r, NoUpsert (⟨.insertEvent w.coll (w.next db ev), r⟩ ::
          ⟨.lastVersion w.coll w.eid, .ok (db.top w.coll w.eid)⟩ :: seen) w.coll :=
        fun r => (hnone' _).cons (by simp)
      rcases handle_insert srv f (next_versionFree he) with ⟨hid, heq⟩ | ⟨hid, heq⟩ |
        ⟨hfault, heq⟩ | ⟨rfl, hid, heq⟩
      · rw [heq]
        exact .stored hid (hnone'' _)
      · rw [heq]
        dsimp only
        have hrace : isDupKeyOn (.dupKey (srv.dupText w.coll .eventID (w.next db ev)))
            .eventVersion = srv.Confuses w.coll (w.next db ev) := rfl
        rw [hrace]
        by_cases hconf : srv.Confuses w.coll (w.next db ev) = true
        · rw [if_pos hconf]
          exact ih rfl (Event.at_at ev _ _ _) (hnone'' _) fun _ => ⟨hid, hconf⟩
        · have hindex : isDupKeyOn (.dupKey (srv.dupText w.coll .eventID (w.next db ev)))
              .eventID = true := srv.names_index _ _ _
          have hend : ∀ {seen}, NoUpsert seen w.coll →
              w.AppendEffect srv C db ev (.error .duplicateEvent) seen db := by
            intro seen hseen
            have hdup : w.AppendEffect srv C db ev _ _ _ := .duplicate hid hseen
            rwa [if_neg hconf] at hdup
          rw [if_neg hconf, if_pos hindex]
          exact hend (hnone'' _)
      · rw [heq]
        exact .failed (by simp) ⟨_, f, hf, hfault⟩ (hnone'' _)
      · rw [heq]
        exact .lost (by simp) hid hf (hnone'' _)
    · exact .failed (by simp) ⟨_, f, hf, hfault⟩ (hnone' _)

/-! ### The whole write -/

/-- The event of a write is a planned one, with what the hooks add. -/
theorem decision_event {newState : Fields} {deleted : Bool}
    (h : w.decision db = .ok (some (ev, newState, deleted))) :
    ∃ planned, planEvent w.now.received (db w.coll).config w.kind w.cmd
        ((db w.coll).current w.eid) = .ok (.write planned newState deleted) ∧
      planned.Annotates ev ∧ ev.entityID = w.eid ∧ ev.eventID = w.cmd.eventID := by
  unfold decision at h
  dsimp only at h
  split_ifs at h
  split at h
  · cases h
  · cases h
  · next planned newState' deleted' hplan =>
    split at h
    · cases h
    · next ev' hhook =>
      cases h
      refine ⟨planned, hplan, ?_⟩
      have hann : planned.Annotates ev := by
        unfold hooked at hhook
        dsimp only at hhook
        split_ifs at hhook
        · exact annotates_runPreStore hhook
        · cases hhook
          exact ⟨_, _, rfl⟩
      refine ⟨hann, ?_⟩
      obtain ⟨m, i, rfl⟩ := hann
      obtain ⟨op, changes, rfl⟩ := planEvent_write hplan
      exact ⟨rfl, rfl⟩

theorem decision_none (h : w.decision db = .ok none) :
    planEvent w.now.received (db w.coll).config w.kind w.cmd ((db w.coll).current w.eid) =
      .ok .noChange := by
  unfold decision at h
  dsimp only at h
  split_ifs at h
  split at h
  · cases h
  · next hplan => exact hplan
  · split at h <;> cases h

/-- The snapshot after the refresh: whether it is due, saved or fails, the write succeeds. -/
theorem buildSnapshot_wp {newState : Fields} {deleted : Bool} (interval : Int)
    (hdec : w.decision db = .ok (some (ev, newState, deleted)))
    (hfree : db.EventIDFree w.coll (w.next db ev))
    (hups : Saw seen (.upsertCurrent w.coll (w.refreshed db ev newState deleted)) (.ok ()))
    (honly : ∀ st r, Saw seen (.upsertCurrent w.coll st) r →
      st = w.refreshed db ev newState deleted) :
    Wp (handle srv) C
      (fun _ => w.Effect srv C db (.ok { entityID := w.eid, version := (w.next db ev).version,
                                         changesCount := ev.changes.length, op := some ev.op }))
      (buildSnapshot w.ing.snapshots w.coll (w.snapshot db ev newState deleted) interval) seen
      ((db.append w.coll (w.next db ev)).upsert w.coll (w.refreshed db ev newState deleted)) := by
  rw [buildSnapshot]
  split_ifs
  · refine Wp.ask_bind_iff.mpr fun f _ => ?_
    -- the error of a snapshot is only logged, so the result does not depend on the fault
    refine .stored hdec hfree (List.mem_cons_of_mem _ hups)
      (fun st r hst => honly st r (hst.of_cons (by simp))) ?_
    cases f with
    | before => exact .inl rfl
    | none | after => exact .inr rfl
  · exact .stored hdec hfree hups honly (.inl rfl)

private theorem commit_wp {cfg : CollectionConfig} {newState : Fields} {deleted : Bool}
    (hdec : w.decision db = .ok (some (ev, newState, deleted))) (hnone : NoUpsert seen w.coll) :
    Wp (handle srv) C (w.Effect srv C db) (do
      match ← commitEvent w.now.stored w.cmd ev newState deleted with
      | .error .duplicateEvent =>
        return .ok { entityID := w.eid, version := (baseState ((db w.coll).current w.eid)).2,
                     deduplicated := true }
      | .error e => return .error e
      | .ok ev =>
        buildSnapshot w.ing.snapshots w.coll
          ⟨w.eid, ev.version, ev.tsReceived, deleted, newState⟩ cfg.snapshotInterval
        return .ok { entityID := w.eid, version := ev.version,
                     changesCount := ev.changes.length, op := some ev.op }) seen db := by
  obtain ⟨-, -, -, he, -⟩ := decision_event hdec
  refine Wp.bind_iff.mpr (Wp.bind_iff.mpr ((appendLoop_wp he maxAppendRetries rfl rfl hnone
    (fun h => absurd h (by decide))).mono ?_))
  rintro r seen' db' (⟨hfree, hnone'⟩ | ⟨htaken, hnone'⟩ | ⟨herr, hfault, hnone'⟩ |
    ⟨herr, hfree, hfault, hnone'⟩)
  · refine Wp.ask_bind_iff.mpr fun f hf => ?_
    cases f with
    | before => exact .stale hdec hfree ⟨_, hf, by simp⟩ (.inl rfl)
    | after => exact .stale hdec hfree ⟨_, hf, by simp⟩ (.inr rfl)
    | none =>
      set obs : Obs Storage :=
        ⟨.upsertCurrent w.coll (w.refreshed db ev newState deleted), .ok ()⟩ with hobs
      have hups : Saw (obs :: seen') (.upsertCurrent w.coll (w.refreshed db ev newState deleted))
          (.ok ()) := saw_self
      have honly : ∀ st r, Saw (obs :: seen') (.upsertCurrent w.coll st) r →
          st = w.refreshed db ev newState deleted := by
        intro st r hst
        rcases List.mem_cons.mp hst with heq | hold
        · rw [hobs] at heq
          cases heq
          rfl
        · exact absurd hold (hnone' st r)
      exact Wp.bind_iff.mpr (buildSnapshot_wp cfg.snapshotInterval hdec hfree hups honly)
  · have hend : w.Effect srv C db _ _ _ := .duplicate hdec htaken hnone'
    by_cases hconf : srv.Confuses w.coll (w.next db ev) = true
    · rw [if_pos hconf] at hend ⊢
      exact hend
    · rw [if_neg hconf] at hend ⊢
      exact hend
  · rename_i e
    cases e with
    | duplicateEvent => exact absurd rfl herr
    | _ => exact .failed hfault hnone'
  · rename_i e
    cases e with
    | duplicateEvent => exact absurd rfl herr
    | _ => exact .lost hdec hfree hfault hnone'

/-- A read phase: the store stays as it is, and the value is the given one unless a call has
failed. -/
def Reads (w : Write) (C : Call → Fault → Prop) (db : Db) {α : Type} (value : Except IngestErr α)
    (r : Except IngestErr α) (seen : List (Obs Storage)) (db' : Db) : Prop :=
  db' = db ∧ NoUpsert seen w.coll ∧
    (r = value ∨ (∃ e, r = .error e) ∧ ∃ call f, C call f ∧ f ≠ .none)

private theorem load_wp (hnone : NoUpsert seen w.coll) : Wp (handle srv) C
    (w.Reads C db (.ok ((db w.coll).current w.eid))) (load w.coll w.eid) seen db := by
  have hnone' : ∀ r, NoUpsert (⟨.getCurrent w.coll w.eid, r⟩ :: seen) w.coll :=
    fun r => hnone.cons (by simp)
  refine read_wp rfl ?_ fun f hf hfault => ?_
  · dsimp only [serve]
    cases (db w.coll).current w.eid with
    | none => exact ⟨rfl, hnone' _, .inl rfl⟩
    | some st => exact ⟨rfl, hnone' _, .inl rfl⟩
  · exact ⟨rfl, hnone' _, .inr ⟨⟨_, rfl⟩, _, f, hf, hfault⟩⟩

private theorem lastEvent_wp (hnone : NoUpsert seen w.coll) : Wp (handle srv) C
    (w.Reads C db (.ok ((db.hist w.coll w.eid).argmax Event.version))) (lastEvent w.coll w.eid)
    seen db := by
  have hnone' : ∀ r, NoUpsert (⟨.lastEvent w.coll w.eid, r⟩ :: seen) w.coll :=
    fun r => hnone.cons (by simp)
  refine read_wp rfl ?_ fun f hf hfault => ?_
  · dsimp only [serve]
    cases (db.hist w.coll w.eid).argmax Event.version with
    | none => exact ⟨rfl, hnone' _, .inl rfl⟩
    | some ev => exact ⟨rfl, hnone' _, .inl rfl⟩
  · exact ⟨rfl, hnone' _, .inr ⟨⟨_, rfl⟩, _, f, hf, hfault⟩⟩

private theorem prepare_wp (hnone : NoUpsert seen w.coll) : Wp (handle srv) C
    (w.Reads C db (.ok ((db w.coll).config, (db w.coll).current w.eid))) (prepare w.cmd)
    seen db := by
  have hnone' : ∀ r, NoUpsert (⟨.ensureCollection w.coll, r⟩ :: seen) w.coll :=
    fun r => hnone.cons (by simp)
  refine read_wp rfl ?_ fun f hf hfault => ?_
  · refine Wp.bind_iff.mpr ((load_wp (hnone' _)).mono ?_)
    rintro r seen' db' ⟨rfl, hseen', rfl | ⟨⟨e, rfl⟩, hfault⟩⟩
    · exact ⟨rfl, hseen', .inl rfl⟩
    · exact ⟨rfl, hseen', .inr ⟨⟨_, rfl⟩, hfault⟩⟩
  · exact ⟨rfl, hnone' _, .inr ⟨⟨_, rfl⟩, _, f, hf, hfault⟩⟩

private theorem preStore_wp {planned : Event} (hnone : NoUpsert seen w.coll) : Wp (handle srv) C
    (w.Reads C db (w.hooked db planned))
    (preStore w.ing (db w.coll).config w.cmd planned ((db w.coll).current w.eid)) seen db := by
  rw [preStore, hooked]
  split_ifs with hpre
  · refine Wp.bind_iff.mpr ((lastEvent_wp hnone).mono ?_)
    rintro r seen' db' ⟨rfl, hseen', rfl | ⟨⟨e, rfl⟩, hfault⟩⟩
    · exact ⟨rfl, hseen', .inl rfl⟩
    · exact ⟨rfl, hseen', .inr ⟨⟨_, rfl⟩, hfault⟩⟩
  · exact ⟨rfl, hnone, .inl rfl⟩

/-- **A write on its own.** Whatever faults within `C` its calls meet, what becomes of it is an
effect of its decision. -/
theorem wp : Wp (handle srv) C (w.Effect srv C db) w.prog [] db := by
  have hnil : NoUpsert [] w.coll := fun _ _ h => List.not_mem_nil h
  refine Wp.bind_iff.mpr ((prepare_wp hnil).mono ?_)
  rintro r seen db' ⟨rfl, hnone, rfl | ⟨⟨e, rfl⟩, hfault⟩⟩
  swap
  · exact .failed hfault hnone
  dsimp only
  by_cases hlock : versionMatches w.cmd.expectedVersion
      (baseState ((db' w.coll).current w.eid)).2 = true
  · rw [if_neg (not_not.mpr hlock)]
    cases hplan : planEvent w.now.received (db' w.coll).config w.kind w.cmd
        ((db' w.coll).current w.eid) with
    | error e => exact .undecided (by simp [decision, hlock, hplan]) hnone
    | ok plan =>
      cases plan with
      | noChange => exact .noChange (by simp [decision, hlock, hplan]) hnone
      | write planned newState deleted =>
        refine Wp.bind_iff.mpr ((preStore_wp hnone).mono ?_)
        rintro r seen' db'' ⟨rfl, hnone', rfl | ⟨⟨e, rfl⟩, hfault⟩⟩
        · cases hhook : w.hooked db'' planned with
          | error e => exact .undecided (by simp [decision, hlock, hplan, hhook]) hnone'
          | ok ev => exact commit_wp (by simp [decision, hlock, hplan, hhook]) hnone'
        · exact .failed hfault hnone'
  · rw [if_pos hlock]
    exact .undecided (by simp [decision, hlock]) hnone

/-- The store works as it should. -/
def Faultless (_ : Call) (f : Fault) : Prop := f = .none

variable (w srv db) in
theorem effect_faultless : let o := w.prog.exec (handle srv) (fun _ _ => Fault.none) [] db
    w.Effect srv Faultless db o.value o.seen o.store := by
  have hnone : ∀ (seen : List (Obs Storage)) call, Faultless call Fault.none := fun _ _ => rfl
  exact w.wp.exec hnone

variable (w srv db) in
theorem effect_eval : ∃ seen, w.Effect srv Faultless db (w.prog.eval (serve srv) db).1 seen
    (w.prog.eval (serve srv) db).2 := by
  have hvalue : (w.prog.exec (handle srv) (fun _ _ => Fault.none) [] db).value =
      (w.prog.eval (serve srv) db).1 := Prog.exec_const.1
  have hstore : (w.prog.exec (handle srv) (fun _ _ => Fault.none) [] db).store =
      (w.prog.eval (serve srv) db).2 := Prog.exec_const.2
  rw [← hvalue, ← hstore]
  exact ⟨_, w.effect_faultless srv db⟩

end Write

end Letopis
