import Letopis.Runs.Extend

/-!
# State writes under faults

`State` writes on one entity, one after the other, where any storage call may fail or have its
reply lost. The append of an event and the refresh of the current state are two calls, and nothing
rebuilds the current state from the history: a fault between the two leaves a base for diffs that
the history has left behind.

As long as every write finds a current state that is up to date, a write that succeeds leaves a
history that replays to what it has submitted (`success_replays`).
-/

namespace Letopis

open Interleaving List

/-- The current state of the entity has the version of its last event. -/
def UpToDate (c e : String) (s : Session Storage Db) : Prop :=
  s.store.curVersion c e = s.store.top c e

instance (c e : String) (s : Session Storage Db) : Decidable (UpToDate c e s) :=
  inferInstanceAs (Decidable (_ = _))

/-- The write submits a full state with plain keys and leaves the op to the server. -/
structure Write.SubmitsState (w : Write) : Prop where
  kind : w.kind = .state
  op : w.cmd.op = none
  regular : (Json.obj w.cmd.state).Regular

theorem Write.SubmitsState.sends {w : Write} (h : w.SubmitsState) : Sends w.kind w.cmd := by
  rw [h.kind]
  exact .state (by simp [h.op]) h.regular

/-- The history of an entity that is alive. -/
structure Db.Alive (db : Db) (c e : String) : Prop where
  keys : (db c).config.arrayKeys = []
  sequenced : db.Sequenced c e
  replays : db.Replays c e
  alive : ∃ state, reconstruct [] false (db.hist c e) = .ok (state, false)

theorem Db.Untouched.alive {db : Db} {c e : String} (h : db.Untouched c e)
    (hkeys : (db c).config.arrayKeys = []) : db.Alive c e :=
  ⟨hkeys, h.sequenced, h.replays, [], by rw [h.hist]; rfl⟩

namespace Db.Alive

variable {w : Write} {srv : Server} {C : Call → Fault → Prop} {db db' : Db}

/-- A write that decides to do nothing has submitted what the history replays to. -/
theorem noChange (h : db.Alive w.coll w.eid) (hw : w.SubmitsState)
    (hfresh : db.curVersion w.coll w.eid = db.top w.coll w.eid)
    (hdec : w.decision db = .ok none) :
    reconstruct [] false (db.hist w.coll w.eid) = .ok (w.cmd.state, false) := by
  obtain ⟨s, d, hs, hbase, hreg⟩ := h.replays.base h.sequenced hfresh h.replays.current
  obtain ⟨state, halive⟩ := h.alive
  rw [halive] at hs
  cases hs
  have hplan := Write.decision_none hdec
  rw [hw.kind] at hplan
  have hdiff := planEvent_state_noChange hplan
  rw [← hbase] at hdiff
  have heq := (diff_eq_nil_iff (show (DiffOptions.mk _).arrayKeys = [] from h.keys) hreg.wf
    hw.regular.wf).mp hdiff
  rw [halive, Json.obj.inj heq]

/-- A write that adds an event leaves a history that replays to what it has submitted. -/
theorem extended {ev : Event} {newState : Fields} {deleted : Bool} (h : db.Alive w.coll w.eid)
    (hw : w.SubmitsState) (hfresh : db.curVersion w.coll w.eid = db.top w.coll w.eid)
    (hdec : w.decision db = .ok (some (ev, newState, deleted)))
    (hext : w.Extends db ev newState deleted db') :
    db'.Alive w.coll w.eid ∧
      reconstruct [] false (db'.hist w.coll w.eid) = .ok (w.cmd.state, false) := by
  obtain ⟨planned, hplan, -⟩ := Write.decision_event hdec
  rw [hw.kind] at hplan
  obtain ⟨rfl, rfl, -⟩ := planEvent_state hplan
  obtain ⟨hrep, hnew⟩ := hext.replays hdec hw.sends h.keys h.sequenced h.replays hfresh
  have hseq := hext.sequenced h.sequenced
  rw [← hext.top_eq h.sequenced, hseq.top_eq] at hnew
  exact ⟨⟨hext.config ▸ h.keys, hseq, hrep, _, hnew.whole⟩, hnew.whole⟩

/-- **One write** keeps an entity alive, and if it succeeds without being a repeat, the history
replays to what it has submitted. -/
theorem effect (h : db.Alive w.coll w.eid) (hw : w.SubmitsState)
    (hfresh : db.curVersion w.coll w.eid = db.top w.coll w.eid)
    {r : Except IngestErr IngestResult} {seen : List (Obs Storage)}
    (heff : w.Effect srv C db r seen db') :
    db'.Alive w.coll w.eid ∧ ∀ res, r = .ok res → res.stored = true ∨ res.noChanges = true →
      reconstruct [] false (db'.hist w.coll w.eid) = .ok (w.cmd.state, false) := by
  rcases heff.unchanged_or_extends with ⟨rfl, hres⟩ | ⟨ev, newState, deleted, hdec, hext⟩
  · refine ⟨h, fun res hr hkind => ?_⟩
    obtain ⟨hstored, hdec⟩ := hres res hr
    exact h.noChange hw hfresh (hdec (hkind.resolve_left (by simp [hstored])))
  · obtain ⟨hlive, hrec⟩ := h.extended hw hfresh hdec hext
    exact ⟨hlive, fun _ _ _ => hrec⟩

end Db.Alive

/-- **What succeeds replays.** `State` writes on one entity, one after the other, under any
faults. If each of them finds a current state that is up to date, then whenever one of them
reports a stored event or no changes, the history stored so far replays to the state it has
submitted. -/
theorem success_replays (srv : Server) (db : Db) {c e : String}
    (hkeys : (db c).config.arrayKeys = []) (hdb : db.Untouched c e)
    (ws : List (Write × (List (Obs Storage) → Call → Fault)))
    (hws : ∀ w ∈ ws, w.1.coll = c ∧ w.1.eid = e ∧ w.1.SubmitsState)
    (hmeets : (Session.mk [] db).Meets (handle srv) (UpToDate c e)
      (ws.map fun w => (w.1.prog, w.2))) :
    ∀ pre w post, ws = pre ++ w :: post →
      let s := (Session.mk [] db).run (handle srv) (pre.map fun w => (w.1.prog, w.2))
      let o := w.1.prog.exec (handle srv) w.2 [] s.store
      ∀ res, o.value = .ok res → res.stored = true ∨ res.noChanges = true →
        reconstruct [] false (o.store.hist c e) = .ok (w.1.cmd.state, false) := by
  rintro pre w post rfl s o
  have heffect : ∀ (s : Session Storage Db) (w : Write × (List (Obs Storage) → Call → Fault)),
      w.1.Effect srv (fun _ _ => True) s.store (w.1.prog.exec (handle srv) w.2 [] s.store).value
        (w.1.prog.exec (handle srv) w.2 [] s.store).seen
        (w.1.prog.exec (handle srv) w.2 [] s.store).store :=
    fun s w => w.1.wp.exec fun _ _ => trivial
  rw [map_append, Session.meets_append, map_cons] at hmeets
  have halive : s.store.Alive c e := by
    refine Session.run_induction (P := fun s => s.store.Alive c e) (fun s a ha hfresh hs => ?_)
      hmeets.1 (hdb.alive hkeys)
    obtain ⟨w, hw, rfl⟩ := mem_map.mp ha
    obtain ⟨rfl, rfl, hsub⟩ := hws w (mem_append_left _ hw)
    exact (hs.effect hsub hfresh (heffect s w)).1
  obtain ⟨rfl, rfl, hsub⟩ := hws w (by simp)
  exact (halive.effect hsub hmeets.2.1 (heffect s w)).2

/-- Three writes; the refresh of the second one fails after it has landed. Each of them finds a
current state that is up to date, and the third one finds nothing to do. -/
theorem success_replays_lost_reply :
    let third : Write × (List (Obs Storage) → Call → Fault) :=
      (.ofState "deals" "42" [("won", .bool true)], fun _ _ => .none)
    let ws : List (Write × (List (Obs Storage) → Call → Fault)) :=
      [(.ofState "deals" "42" [("won", .bool false)], fun _ _ => .none),
       (.ofState "deals" "42" [("won", .bool true)], fun _ call =>
        match call with
        | .upsertCurrent _ _ => .after
        | _ => .none)]
    let s := (Session.mk [] fun _ => {}).run (handle .mongo) (ws.map fun w => (w.1.prog, w.2))
    let o := third.1.prog.exec (handle .mongo) third.2 [] s.store
    o.value = .ok { entityID := "42", version := 2, noChanges := true } ∧
      reconstruct [] false (o.store.hist "deals" "42") = .ok (third.1.cmd.state, false) := by
  intro third ws s o
  have hvalue : o.value = .ok { entityID := "42", version := 2, noChanges := true } := by decide
  have hws : ∀ w ∈ ws ++ [third], w.1.coll = "deals" ∧ w.1.eid = "42" ∧ w.1.SubmitsState := by
    simp only [ws, third, cons_append, nil_append, forall_mem_cons]
    exact ⟨⟨rfl, rfl, rfl, rfl, by decide, by decide⟩, ⟨rfl, rfl, rfl, rfl, by decide, by decide⟩,
      ⟨rfl, rfl, rfl, rfl, by decide, by decide⟩, by simp⟩
  have hmeets : (Session.mk [] fun _ => {}).Meets (handle .mongo) (UpToDate "deals" "42")
      ((ws ++ [third]).map fun w => (w.1.prog, w.2)) :=
    ⟨by decide, by decide, by decide, trivial⟩
  have hrun := success_replays .mongo (fun _ => {}) rfl ⟨rfl, rfl⟩ (ws ++ [third]) hws hmeets ws
    third [] rfl
  exact ⟨hvalue, hrun _ hvalue (.inr rfl)⟩

/-- The refresh of the second write fails. The third one, which submits what the current state
still says, is told that there is nothing to change, while the history replays to the state of
the second. -/
theorem failed_refresh_hides_change :
    let ws : List (Write × (List (Obs Storage) → Call → Fault)) :=
      [(.ofState "deals" "42" [("won", .bool false)], fun _ _ => .none),
       (.ofState "deals" "42" [("won", .bool true)], fun _ call =>
        match call with
        | .upsertCurrent _ _ => .before
        | _ => .none)]
    let s := (Session.mk [] fun _ => {}).run (handle .mongo) (ws.map fun w => (w.1.prog, w.2))
    let o := (Write.ofState "deals" "42" [("won", .bool false)]).prog.exec (handle .mongo)
      (fun _ _ => .none) [] s.store
    o.value = .ok { entityID := "42", version := 1, noChanges := true } ∧
      reconstruct [] false (o.store.hist "deals" "42") = .ok ([("won", .bool true)], false) := by
  decide

end Letopis
