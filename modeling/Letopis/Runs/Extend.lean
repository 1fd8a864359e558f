import Letopis.Service.Replays
import Letopis.Service.Sequential

/-!
# One more event

A write without interference leaves its entity as it was, or adds one event, refreshes the
current state to what the event leads to or leaves it, and saves a snapshot of that state or
none (`Write.Extends`). If the current state was up to date when the write began, the extended
history replays to the state the event was planned for. Writes without faults keep it up to date
(`Db.Tracked`).
-/

namespace Letopis

open Interleaving List

/-- The entity has one more event: the one the write has decided on. -/
structure Write.Extends (w : Write) (db : Db) (ev : Event) (newState : Fields) (deleted : Bool)
    (db' : Db) : Prop where
  config : (db' w.coll).config = (db w.coll).config
  hist : db'.hist w.coll w.eid = db.hist w.coll w.eid ++ [w.next db ev]
  /-- The current state is the old one or the new one. -/
  current : (db' w.coll).current w.eid = (db w.coll).current w.eid ∨
    (db' w.coll).current w.eid = some (w.refreshed db ev newState deleted)
  snapshots : ∀ snap ∈ (db' w.coll).snapshots, snap ∈ (db w.coll).snapshots ∨
    snap = w.snapshot db ev newState deleted

namespace Write

variable {w : Write} {srv : Server} {C : Call → Fault → Prop} {db db' : Db} {ev : Event}
  {newState : Fields} {deleted : Bool}

private theorem extends_append (he : ev.entityID = w.eid) :
    w.Extends db ev newState deleted (db.append w.coll (w.next db ev)) := by
  refine ⟨by simp, ?_, .inl (by simp), fun snap hsnap => .inl (by simpa using hsnap)⟩
  rw [Db.hist_append, if_pos ⟨rfl, he⟩]

theorem extends_upsert (he : ev.entityID = w.eid) : w.Extends db ev newState deleted
    ((db.append w.coll (w.next db ev)).upsert w.coll (w.refreshed db ev newState deleted)) := by
  obtain ⟨-, hhist, -, hsnaps⟩ : w.Extends db ev newState deleted _ := extends_append he
  refine ⟨by simp, by simpa using hhist, .inr ?_, by simpa using hsnaps⟩
  simp [Db.upsert_current, refreshed]

theorem extends_save (he : ev.entityID = w.eid) : w.Extends db ev newState deleted
    (((db.append w.coll (w.next db ev)).upsert w.coll (w.refreshed db ev newState deleted)).save
      w.coll (w.snapshot db ev newState deleted)) := by
  obtain ⟨-, hhist, hcurrent, hsnaps⟩ : w.Extends db ev newState deleted _ := extends_upsert he
  refine ⟨by simp, by simpa using hhist, by simpa using hcurrent,
    fun snap hsnap => ?_⟩
  rcases Db.mem_save_snapshots _ _ _ _ hsnap with ⟨-, heq⟩ | hold
  · exact .inr heq
  · exact hsnaps snap hold

/-- **A write leaves its entity as it was, or with one more event.** In the first case it has
stored nothing, and if it reports no changes, it has decided so. -/
theorem Effect.unchanged_or_extends {r : Except IngestErr IngestResult}
    {seen : List (Obs Storage)} (h : w.Effect srv C db r seen db') :
    (db' = db ∧ ∀ res, r = .ok res →
        res.stored = false ∧ (res.noChanges = true → w.decision db = .ok none)) ∨
      ∃ ev newState deleted, w.decision db = .ok (some (ev, newState, deleted)) ∧
        w.Extends db ev newState deleted db' := by
  cases h with
  | failed => exact .inl ⟨rfl, fun res hres => nomatch hres⟩
  | undecided => exact .inl ⟨rfl, fun res hres => nomatch hres⟩
  | noChange hdec =>
    refine .inl ⟨rfl, fun res hres => ?_⟩
    cases hres
    exact ⟨rfl, fun _ => hdec⟩
  | duplicate =>
    refine .inl ⟨rfl, fun res hres => ?_⟩
    split_ifs at hres
    cases hres
    exact ⟨rfl, fun h => nomatch h⟩
  | lost hdec =>
    obtain ⟨-, -, -, he, -⟩ := decision_event hdec
    exact .inr ⟨_, _, _, hdec, extends_append he⟩
  | stale hdec _ _ hstore =>
    obtain ⟨-, -, -, he, -⟩ := decision_event hdec
    rcases hstore with rfl | rfl
    · exact .inr ⟨_, _, _, hdec, extends_append he⟩
    · exact .inr ⟨_, _, _, hdec, extends_upsert he⟩
  | stored hdec _ _ _ hstore =>
    obtain ⟨-, -, -, he, -⟩ := decision_event hdec
    rcases hstore with rfl | rfl
    · exact .inr ⟨_, _, _, hdec, extends_upsert he⟩
    · exact .inr ⟨_, _, _, hdec, extends_save he⟩

/-! ### Without faults -/

variable (w srv db) in
/-- What becomes of a write without interference and without faults. -/
inductive FaultlessEffect : Except IngestErr IngestResult → Db → Prop
  | error {e : IngestErr} : FaultlessEffect (.error e) db
  | noChange (decision : w.decision db = .ok none) :
      FaultlessEffect (.ok { entityID := w.eid, version := db.curVersion w.coll w.eid,
                             noChanges := true }) db
  | repeated {ev : Event} {newState : Fields} {deleted : Bool}
      (decision : w.decision db = .ok (some (ev, newState, deleted)))
      (taken : ¬ db.EventIDFree w.coll (w.next db ev)) :
      FaultlessEffect (.ok { entityID := w.eid, version := db.curVersion w.coll w.eid,
                             deduplicated := true }) db
  | stored {ev : Event} {newState : Fields} {deleted : Bool} {db' : Db}
      (decision : w.decision db = .ok (some (ev, newState, deleted)))
      (free : db.EventIDFree w.coll (w.next db ev)) (ext : w.Extends db ev newState deleted db')
      (current : (db' w.coll).current w.eid = some (w.refreshed db ev newState deleted)) :
      FaultlessEffect (.ok { entityID := w.eid, version := (w.next db ev).version,
                             changesCount := ev.changes.length, op := some ev.op }) db'

variable (w srv db) in
/-- What a write without faults does. -/
theorem exec_faultless : let o := w.prog.exec (handle srv) (fun _ _ => Fault.none) [] db
    w.FaultlessEffect db o.value o.store := by
  intro o
  have heff : w.Effect srv Faultless db o.value o.seen o.store := w.effect_faultless srv db
  generalize o = o at heff ⊢
  obtain ⟨value, seen, db'⟩ := o
  dsimp only at heff ⊢
  cases heff with
  | failed | undecided => exact .error
  | noChange hdec => exact .noChange hdec
  | duplicate hdec htaken =>
    split_ifs
    · exact .error
    · exact .repeated hdec htaken
  | lost _ _ hfault => cases hfault
  | stale _ _ hfault =>
    obtain ⟨f, hf, hne⟩ := hfault
    exact absurd hf hne
  | stored hdec hfree _ _ hstore =>
    obtain ⟨-, -, -, he, -⟩ := decision_event hdec
    rcases hstore with rfl | rfl
    · exact .stored hdec hfree (extends_upsert he) (by simp [Db.upsert_current, refreshed])
    · exact .stored hdec hfree (extends_save he) (by simp [Db.upsert_current, refreshed])

/-! ### What an extension keeps -/

namespace Extends

variable (h : w.Extends db ev newState deleted db')

include h

theorem sequenced (hseq : db.Sequenced w.coll w.eid) : db'.Sequenced w.coll w.eid := by
  refine hseq.concat h.hist (by rw [← hseq.top_eq]; rfl) fun st hst => ?_
  rcases h.current with hcur | hcur
  · exact .inl (hcur ▸ hst)
  · rw [hcur] at hst
    cases hst
    exact .inr rfl

theorem top_eq (hseq : db.Sequenced w.coll w.eid) :
    db'.top w.coll w.eid = (w.next db ev).version := by
  rw [(h.sequenced hseq).top_eq, h.hist, length_append, length_singleton,
    ← hseq.top_eq]
  rfl

/-- **The extended history replays to the state planned for**, if the write began with a current
state that was up to date. -/
theorem replays (hdec : w.decision db = .ok (some (ev, newState, deleted)))
    (hsends : Sends w.kind w.cmd) (hkeys : (db w.coll).config.arrayKeys = [])
    (hseq : db.Sequenced w.coll w.eid) (hrep : db.Replays w.coll w.eid)
    (hfresh : db.curVersion w.coll w.eid = db.top w.coll w.eid) :
    db'.Replays w.coll w.eid ∧
      Reports (db'.hist w.coll w.eid) (w.next db ev).version newState deleted := by
  obtain ⟨planned, hplan, ⟨m, i, rfl⟩, -⟩ := decision_event hdec
  set ev : Event := { planned with metadata := m, integrity := i }
  have hkept : (w.next db ev).op = planned.op ∧ (w.next db ev).changes = planned.changes :=
    ⟨rfl, rfl⟩
  obtain ⟨hrec, hreg⟩ := hrep.concat hseq hfresh hrep.current hkeys hsends hplan hkept
  have hnew : Reports (db'.hist w.coll w.eid) (w.next db ev).version newState deleted := by
    refine .of_replay ?_ (h.hist ▸ hrec)
    rw [← h.top_eq hseq, (h.sequenced hseq).top_eq]
  refine ⟨hrep.extend h.hist hrec hreg fun st hst => ?_, hnew⟩
  rcases h.current with hcur | hcur
  · rw [h.hist]
    exact (hrep.current st (hcur ▸ hst)).mono (prefix_append _ _)
  · rw [hcur] at hst
    cases hst
    exact hnew

end Extends

end Write

/-! ### Runs without faults -/

/-- One write without faults leaves its entity as it was, or with one more event and the current
state that it leads to. -/
theorem exec_unchanged_or_extends (srv : Server) (w : Write) (db : Db) :
    let db' := (w.prog.exec (handle srv) (fun _ _ => Fault.none) [] db).store
    db' = db ∨ ∃ ev newState deleted, w.decision db = .ok (some (ev, newState, deleted)) ∧
      w.Extends db ev newState deleted db' ∧
      (db' w.coll).current w.eid = some (w.refreshed db ev newState deleted) := by
  intro db'
  have heff : w.FaultlessEffect db _ db' := w.exec_faultless srv db
  generalize (w.prog.exec (handle srv) (fun _ _ => Fault.none) [] db).value = value at heff
  generalize db' = db' at heff ⊢
  cases heff with
  | error | noChange | repeated => exact .inl rfl
  | stored hdec _ hext hcur => exact .inr ⟨_, _, _, hdec, hext, hcur⟩

/-- The store after writes that run one after the other without faults. -/
def afterWrites (srv : Server) (db : Db) (ws : List Write) : Db :=
  ((Session.mk [] db).run (handle srv) (ws.map fun w => (w.prog, fun _ _ => Fault.none))).store

theorem after_concat (srv : Server) (db : Db) (ws : List Write) (w : Write) :
    afterWrites srv db (ws ++ [w]) =
      (w.prog.exec (handle srv) (fun _ _ => Fault.none) [] (afterWrites srv db ws)).store := by
  rw [afterWrites, map_append, Session.run, foldl_append]
  rfl

/-- The history has no gaps and replays, and the current state is up to date. -/
structure Db.Tracked (db : Db) (c e : String) : Prop where
  keys : (db c).config.arrayKeys = []
  sequenced : db.Sequenced c e
  replays : db.Replays c e
  fresh : db.curVersion c e = db.top c e

namespace Db.Tracked

variable {srv : Server} {db db' : Db} {c e : String} {w : Write} {ev : Event} {newState : Fields}
  {deleted : Bool}

theorem start (hkeys : (db c).config.arrayKeys = []) (hdb : db.Untouched c e) :
    db.Tracked c e where
  keys := hkeys
  sequenced := hdb.sequenced
  replays := hdb.replays
  fresh := by
    rw [hdb.sequenced.top_eq, Db.curVersion, hdb.current, hdb.hist]
    rfl

theorem extend (h : db.Tracked w.coll w.eid) (hsends : Sends w.kind w.cmd)
    (hdec : w.decision db = .ok (some (ev, newState, deleted)))
    (hext : w.Extends db ev newState deleted db')
    (hcur : (db' w.coll).current w.eid = some (w.refreshed db ev newState deleted)) :
    db'.Tracked w.coll w.eid where
  keys := by rw [hext.config, h.keys]
  sequenced := hext.sequenced h.sequenced
  replays := (hext.replays hdec hsends h.keys h.sequenced h.replays h.fresh).1
  fresh := by
    rw [Db.curVersion, hcur, baseState_some, hext.top_eq h.sequenced]
    rfl

theorem exec (h : db.Tracked c e) (hcoll : w.coll = c) (heid : w.eid = e)
    (hsends : Sends w.kind w.cmd) :
    (w.prog.exec (handle srv) (fun _ _ => Fault.none) [] db).store.Tracked c e := by
  subst hcoll heid
  obtain heq | ⟨ev, newState, deleted, hdec, hext, hcur⟩ := exec_unchanged_or_extends srv w db
  · rwa [heq]
  · exact h.extend hsends hdec hext hcur

theorem after (h : db.Tracked c e) {ws : List Write}
    (hws : ∀ w ∈ ws, w.coll = c ∧ w.eid = e ∧ Sends w.kind w.cmd) :
    (afterWrites srv db ws).Tracked c e := by
  induction ws using List.reverseRecOn with
  | nil => exact h
  | append_singleton ws w ih =>
    obtain ⟨hws, hw⟩ := forall_mem_append.mp hws
    obtain ⟨hcoll, heid, hsends⟩ := forall_mem_singleton.mp hw
    rw [after_concat]
    exact (ih hws).exec hcoll heid hsends

end Db.Tracked

end Letopis
