import Letopis.Runs.Extend
import Letopis.Service.Read

/-!
# Reads after a run of writes

Writes on one entity, one after the other. Their events and current states are stored without
faults; snapshots may fail to be saved, and may be lost later. Reading a stored version then
returns the current state that was written when the version was committed, whether the read
replays the whole history or starts from one of the snapshots that are left.

What carries the run is `Settled`: the history, the current state, the snapshots and all current
states ever written are the same account of the entity.
-/

namespace Letopis

open Interleaving List

/-- The faults of a run in which events and current states are stored without any. -/
def CommitsSucceed (call : Call) (f : Fault) : Prop := call.isCommit = true → f = .none

/-- The same events and current states, with some snapshots gone. -/
structure Db.Outlives (db' db : Db) (c : String) : Prop where
  events : (db' c).events = (db c).events
  current : (db' c).current = (db c).current
  snapshots : (db' c).snapshots ⊆ (db c).snapshots

/-- Reading the version of a current state returns the state and its flag, from any snapshot that
is left or from none. -/
def ReadsBack (srv : Server) (db : Db) (c e : String) (st : CurrentState) : Prop :=
  ∀ db', db'.Outlives db c → ∀ snapshots : Bool, ∀ oracle : List (Obs Storage) → Call → Fault,
    (∀ seen call, SnapshotFaults call (oracle seen call)) →
    ∃ res, ((stateAt snapshots c e { version := some st.version }).exec (handle srv) oracle []
        db').value = .ok res ∧
      res.version = (st.version : Int) ∧ res.state = st.state ∧ res.deleted = st.deleted

/-- What the history, the current state, the snapshots and the log of a run say about an entity
is the same. -/
structure Settled (c e : String) (s : Session Storage Db) : Prop where
  keys : (s.store c).config.arrayKeys = []
  sequenced : s.store.Sequenced c e
  replays : s.store.Replays c e
  fresh : s.store.curVersion c e = s.store.top c e
  snapshots : s.store.SnapshotsReplay c e
  /-- Every current state written is what the history reports. -/
  upserted : ∀ st r, Saw s.log (.upsertCurrent c st) r →
    1 ≤ st.version ∧ Reports (s.store.hist c e) st.version st.state st.deleted
  committed : ∀ ev ∈ s.store.hist c e, ∃ st, Saw s.log (.upsertCurrent c st) (.ok ()) ∧
    st.version = ev.version
  current : ∀ st, (s.store c).current e = some st → Saw s.log (.upsertCurrent c st) (.ok ())

namespace Settled

variable {c e : String} {s : Session Storage Db} {srv : Server}

theorem start {db : Db} (hkeys : (db c).config.arrayKeys = []) (hdb : db.Untouched c e)
    (hsnap : ∀ snap ∈ (db c).snapshots, snap.entityID ≠ e) : Settled c e ⟨[], db⟩ where
  __ := Db.Tracked.start hkeys hdb
  snapshots := fun snap hmem he => absurd he (hsnap snap hmem)
  upserted := fun st r h => absurd h not_mem_nil
  committed := fun ev hev => by
    rw [hdb.hist] at hev
    exact absurd hev not_mem_nil
  current := fun st hst => by
    rw [hdb.current] at hst
    cases hst

theorem tracked (h : Settled c e s) : s.store.Tracked c e :=
  ⟨h.keys, h.sequenced, h.replays, h.fresh⟩

theorem unchanged (h : Settled c e s) {seen : List (Obs Storage)} (hnone : NoUpsert seen c) :
    Settled c e ⟨seen ++ s.log, s.store⟩ := by
  have hlog : s.log ⊆ seen ++ s.log := subset_append_right _ _
  refine { h with upserted := ?_, committed := ?_, current := ?_ }
  · intro st r hst
    rcases mem_append.mp hst with hnew | hold
    · exact absurd hnew (hnone st r)
    · exact h.upserted st r hold
  · intro ev hev
    obtain ⟨st, hst, hv⟩ := h.committed ev hev
    exact ⟨st, hst.mono hlog, hv⟩
  · intro st hst
    exact (h.current st hst).mono hlog

/-- A write that adds an event and refreshes the current state to what it leads to. -/
theorem extended {w : Write} {ev : Event} {newState : Fields} {deleted : Bool} {db' : Db}
    {seen : List (Obs Storage)} (h : Settled w.coll w.eid s) (hsends : Sends w.kind w.cmd)
    (hdec : w.decision s.store = .ok (some (ev, newState, deleted)))
    (hext : w.Extends s.store ev newState deleted db')
    (hcur : (db' w.coll).current w.eid = some (w.refreshed s.store ev newState deleted))
    (hups : Saw seen (.upsertCurrent w.coll (w.refreshed s.store ev newState deleted)) (.ok ()))
    (honly : ∀ st r, Saw seen (.upsertCurrent w.coll st) r →
      st = w.refreshed s.store ev newState deleted) :
    Settled w.coll w.eid ⟨seen ++ s.log, db'⟩ := by
  obtain ⟨-, hnew⟩ := hext.replays hdec hsends h.keys h.sequenced h.replays h.fresh
  have htracked : db'.Tracked w.coll w.eid := h.tracked.extend hsends hdec hext hcur
  have hgrows : s.store.hist w.coll w.eid <+: db'.hist w.coll w.eid :=
    hext.hist ▸ prefix_append _ _
  have hlog : s.log ⊆ seen ++ s.log := subset_append_right _ _
  have hups' : Saw (seen ++ s.log) (.upsertCurrent w.coll
      (w.refreshed s.store ev newState deleted)) (.ok ()) := mem_append_left _ hups
  refine { htracked with snapshots := ?_, upserted := ?_, committed := ?_, current := ?_ }
  · intro snap hsnap he
    rcases hext.snapshots snap hsnap with hold | rfl
    · exact (h.snapshots snap hold he).mono hgrows
    · exact hnew
  · intro st r hst
    rcases mem_append.mp hst with hst | hst
    · rw [honly st r hst]
      exact ⟨Nat.succ_pos _, hnew⟩
    · obtain ⟨hpos, hold⟩ := h.upserted st r hst
      exact ⟨hpos, hold.mono hgrows⟩
  · intro x hx
    rw [hext.hist, mem_append, mem_singleton] at hx
    rcases hx with hx | rfl
    · obtain ⟨st, hst, hv⟩ := h.committed x hx
      exact ⟨st, hst.mono hlog, hv⟩
    · exact ⟨_, hups', rfl⟩
  · intro st hst
    rw [hcur] at hst
    cases hst
    exact hups'

/-- **One write** keeps an entity settled. -/
theorem exec (h : Settled c e s) {w : Write} {oracle : List (Obs Storage) → Call → Fault}
    (hcoll : w.coll = c) (heid : w.eid = e) (hsends : Sends w.kind w.cmd)
    (horacle : ∀ seen call, CommitsSucceed call (oracle seen call)) :
    Settled c e (s.exec (handle srv) (w.prog, oracle)) := by
  subst hcoll heid
  have hwp : Wp (handle srv) CommitsSucceed (w.Effect srv CommitsSucceed s.store) w.prog []
      s.store := w.wp
  have heff := hwp.exec horacle
  rw [Session.exec]
  generalize w.prog.exec (handle srv) oracle [] s.store = o at heff ⊢
  obtain ⟨value, seen, db'⟩ := o
  cases heff with
  | failed _ hnone => exact h.unchanged hnone
  | undecided _ hnone => exact h.unchanged hnone
  | noChange _ hnone => exact h.unchanged hnone
  | duplicate _ _ hnone => exact h.unchanged hnone
  | lost _ _ hfault => exact absurd (hfault rfl) (by simp)
  | stale _ _ hfault =>
    obtain ⟨f, hf, hne⟩ := hfault
    exact absurd (hf rfl) hne
  | stored hdec _ hups honly hstore =>
    obtain ⟨-, -, -, he, -⟩ := Write.decision_event hdec
    rcases hstore with rfl | rfl
    · exact h.extended hsends hdec (Write.extends_upsert he)
        (by simp [Db.upsert_current, Write.refreshed]) hups honly
    · exact h.extended hsends hdec (Write.extends_save he)
        (by simp [Db.upsert_current, Write.refreshed]) hups honly

theorem run {db : Db} (hkeys : (db c).config.arrayKeys = []) (hdb : db.Untouched c e)
    (hsnap : ∀ snap ∈ (db c).snapshots, snap.entityID ≠ e)
    {ws : List (Write × (List (Obs Storage) → Call → Fault))}
    (hws : ∀ w ∈ ws, w.1.coll = c ∧ w.1.eid = e ∧ Sends w.1.kind w.1.cmd)
    (horacle : ∀ w ∈ ws, ∀ seen call, CommitsSucceed call (w.2 seen call)) :
    Settled c e ((Session.mk [] db).run (handle srv) (ws.map fun w => (w.1.prog, w.2))) := by
  refine Session.run_induction (fun s a ha _ hs => ?_) Session.meets_true (start hkeys hdb hsnap)
  obtain ⟨w, hw, rfl⟩ := mem_map.mp ha
  obtain ⟨hcoll, heid, hsends⟩ := hws w hw
  exact hs.exec hcoll heid hsends (horacle w hw)

/-- **Every version reads back.** -/
theorem readsBack (h : Settled c e s) (he : e ≠ "") {st : CurrentState}
    {r : Except StoreErr Unit} (hst : Saw s.log (.upsertCurrent c st) r) :
    ReadsBack srv s.store c e st := by
  intro db' hdb' snapshots oracle horacle
  obtain ⟨hpos, hrep⟩ := h.upserted st r hst
  have hhist : db'.hist c e = s.store.hist c e := by rw [Db.hist, Db.hist, hdb'.events]
  have hseq : db'.Sequenced c e := by
    refine ⟨by rw [hhist]; exact h.sequenced.versions, fun st hst => ?_⟩
    rw [hhist]
    exact h.sequenced.current st (hdb'.current ▸ hst)
  have hsnap : db'.SnapshotsReplay c e := by
    intro snap hmem hsnap
    rw [hhist]
    exact h.snapshots snap (hdb'.snapshots hmem) hsnap
  exact Wp.exec horacle (stateAt_wp hseq he hsnap hpos (hhist ▸ hrep))

end Settled

/-- **Reads agree with commits.** After writes on one entity, one after the other, each of which
sends a full state or deletes: every stored version was committed with a current state, every
current state that was written reads back under its version, and the current state is the one
written for the last version. -/
theorem reads_agree_with_commits (srv : Server) (db : Db) {c e : String} (he : e ≠ "")
    (hkeys : (db c).config.arrayKeys = []) (hdb : db.Untouched c e)
    (hsnap : ∀ snap ∈ (db c).snapshots, snap.entityID ≠ e)
    (ws : List (Write × (List (Obs Storage) → Call → Fault)))
    (hws : ∀ w ∈ ws, w.1.coll = c ∧ w.1.eid = e ∧ Sends w.1.kind w.1.cmd)
    (horacle : ∀ w ∈ ws, ∀ seen call, CommitsSucceed call (w.2 seen call)) :
    let s := (Session.mk [] db).run (handle srv) (ws.map fun w => (w.1.prog, w.2))
    (∀ ev ∈ s.store.hist c e, ∃ st, Saw s.log (.upsertCurrent c st) (.ok ()) ∧
      st.version = ev.version) ∧
    (∀ st r, Saw s.log (.upsertCurrent c st) r → ReadsBack srv s.store c e st) ∧
    (∀ st, (s.store c).current e = some st → Saw s.log (.upsertCurrent c st) (.ok ())) ∧
    s.store.curVersion c e = s.store.top c e := by
  intro s
  have hsettled : Settled c e s := .run hkeys hdb hsnap hws horacle
  exact ⟨hsettled.committed, fun st r hst => hsettled.readsBack he hst, hsettled.current,
    hsettled.fresh⟩

/-- An entity is created, deleted and created again, with a snapshot due at every version. The
snapshot of the delete is not saved; all three versions read back. -/
theorem reads_agree_with_commits_revived :
    let snapshotting : Write → Write := fun w => { w with ing := { snapshots := true } }
    let noSnapshot : List (Obs Storage) → Call → Fault := fun _ call =>
      match call with
      | .saveSnapshot _ _ => .before
      | _ => .none
    let ws : List (Write × (List (Obs Storage) → Call → Fault)) :=
      [(snapshotting (.ofState "deals" "42" [("won", .bool false)]), fun _ _ => .none),
       (snapshotting { Write.ofState "deals" "42" [] with kind := .delete }, noSnapshot),
       (snapshotting (.ofState "deals" "42" [("won", .bool true)]), fun _ _ => .none)]
    let s := (Session.mk [] fun _ => { config := { snapshotInterval := 1 } }).run (handle .mongo)
      (ws.map fun w => (w.1.prog, w.2))
    ((s.store.hist "deals" "42").map Event.version = [1, 2, 3] ∧
      (s.store "deals").snapshots.map Snapshot.version = [1, 3]) ∧
    ∀ ev ∈ s.store.hist "deals" "42", ∃ st, Saw s.log (.upsertCurrent "deals" st) (.ok ()) ∧
      st.version = ev.version ∧ ReadsBack .mongo s.store "deals" "42" st := by
  intro snapshotting noSnapshot ws s
  have hsends : ∀ w ∈ ws, w.1.coll = "deals" ∧ w.1.eid = "42" ∧ Sends w.1.kind w.1.cmd := by
    simp only [ws, forall_mem_cons]
    exact ⟨⟨rfl, rfl, .state (by decide) ⟨by decide, by decide⟩⟩, ⟨rfl, rfl, .delete⟩,
      ⟨rfl, rfl, .state (by decide) ⟨by decide, by decide⟩⟩, by simp⟩
  have hcommits : ∀ w ∈ ws, ∀ seen call, CommitsSucceed call (w.2 seen call) := by
    simp only [ws, forall_mem_cons]
    refine ⟨fun _ _ _ => rfl, fun _ call hcall => ?_, fun _ _ _ => rfl, by simp⟩
    cases call <;> first | rfl | cases hcall
  obtain ⟨hcommitted, hreads, -⟩ := reads_agree_with_commits .mongo
    (fun _ => { config := { snapshotInterval := 1 } }) (by decide) rfl ⟨rfl, rfl⟩ (by simp) ws
    hsends hcommits
  refine ⟨by decide, fun ev hev => ?_⟩
  obtain ⟨st, hst, hv⟩ := hcommitted ev hev
  exact ⟨st, hst, hv, hreads st _ hst⟩

end Letopis
