import Letopis.Runs.Snapshots
import Letopis.Runs.Submitted

/-!
# What is kept of a deleted entity

A `Delete` records no changes: the current state is marked as deleted and keeps its value, so that
the last live state stays on display, in the current state, in snapshots and in reads of the
version. What a `Delete` keeps is the base of the next diff, though, and for an entity that is
deleted already the base is empty. The second of two deletes in a row forgets the value.

`deleted_keeps_last_live` is about runs in which no such delete happens. The history has to replay
as well, so arrays are compared by position, keys are plain and no `State` is sent as a delete; the
runs of `second_delete_forgets` show what each of these is for.
-/

namespace Letopis

open Interleaving List

/-- After the writes, the given state is the last one in which the entity was live: it was after
some of them, and has not been live since. -/
def LastLive (srv : Server) (db : Db) (c e : String) (ws : List Write) (state : Fields) : Prop :=
  ∃ p q, ws = p ++ q ∧ (∃ v, (afterWrites srv db p).LiveIn c e state v) ∧
    ∀ q₁ q₂, q = q₁ ++ q₂ → q₁ ≠ [] → ∀ s v, ¬ (afterWrites srv db (p ++ q₁)).LiveIn c e s v

section

variable {srv : Server} {db : Db} {c e : String} {ws : List Write} {w : Write} {state : Fields}

/-- With one more write, the entity is live in the state, or it is not live and the state is the
last live one from before. -/
theorem LastLive.of_concat (h : LastLive srv db c e (ws ++ [w]) state) :
    (∃ v, (afterWrites srv db (ws ++ [w])).LiveIn c e state v) ∨
      LastLive srv db c e ws state ∧
        ∀ s v, ¬ (afterWrites srv db (ws ++ [w])).LiveIn c e s v := by
  obtain ⟨p, q, hpq, hlive, hsince⟩ := h
  induction q using List.reverseRecOn with
  | nil =>
    rw [append_nil] at hpq
    exact .inl (hpq ▸ hlive)
  | append_singleton q x _ =>
    rw [← append_assoc] at hpq
    obtain ⟨rfl, hx⟩ := append_inj' hpq rfl
    cases hx
    refine .inr ⟨⟨p, q, rfl, hlive, fun q₁ q₂ hq hne => ?_⟩, fun s v => ?_⟩
    · exact hsince q₁ (q₂ ++ [w]) (by rw [hq, append_assoc]) hne
    · have hend := hsince (q ++ [w]) [] (by rw [append_nil]) (by simp) s v
      rwa [← append_assoc] at hend

private theorem Write.refreshed_delete {ev : Event} {newState : Fields} {deleted : Bool}
    (hkind : w.kind = .delete) (hdec : w.decision db = .ok (some (ev, newState, deleted))) :
    newState = (baseState ((db w.coll).current w.eid)).1 ∧ deleted = true := by
  obtain ⟨planned, hplan, -⟩ := decision_event hdec
  rw [hkind] at hplan
  obtain ⟨hnew, hdel, -⟩ := planEvent_delete hplan
  exact ⟨hnew, hdel⟩

/-- What a `Delete` leaves of an entity that is deleted: the entity as it was, or nothing of its
state. -/
theorem Write.exec_delete_deleted (hkind : w.kind = .delete) {st st' : CurrentState}
    (hst : (db w.coll).current w.eid = some st) (hdel : st.deleted = true)
    (hst' : ((w.prog.exec (handle srv) (fun _ _ => Fault.none) [] db).store w.coll).current w.eid =
      some st') : st' = st ∨ st'.deleted = true ∧ st'.state = [] := by
  obtain heq | ⟨ev, newState, deleted, hdec, -, hcur⟩ := exec_unchanged_or_extends srv w db
  · rw [heq, hst] at hst'
    exact .inl (Option.some.inj hst').symm
  · obtain ⟨hnew, rfl⟩ := refreshed_delete hkind hdec
    rw [hcur] at hst'
    cases hst'
    rw [hst, baseState_some, workOf, hdel] at hnew
    exact .inr ⟨rfl, hnew⟩

/-- **One write.** If no value is forgotten, the last live state stays in the current state. -/
theorem LastLive.kept (hcoll : w.coll = c) (heid : w.eid = e) (hsends : Sends w.kind w.cmd)
    (hdel : w.kind = .delete → ∀ st, (afterWrites srv db ws c).current e = some st →
      st.deleted = true → st.state = [])
    (ih : LastLive srv db c e ws state →
      ∃ st, (afterWrites srv db ws c).current e = some st ∧ st.state = state)
    (h : LastLive srv db c e (ws ++ [w]) state) :
    ∃ st, (afterWrites srv db (ws ++ [w]) c).current e = some st ∧ st.state = state := by
  subst hcoll heid
  obtain ⟨v, st, hst, -, hstate, -⟩ | ⟨hlast, hdead⟩ := h.of_concat
  · exact ⟨st, hst, hstate⟩
  obtain ⟨st, hst, hstate⟩ := ih hlast
  rw [after_concat] at hdead ⊢
  obtain heq | ⟨ev, newState, deleted, hdec, -, hcur⟩ :=
    exec_unchanged_or_extends srv w (afterWrites srv db ws)
  · exact ⟨st, by rw [heq, hst], hstate⟩
  · refine ⟨_, hcur, ?_⟩
    generalize hkind : w.kind = kind at hsends
    cases hsends with
    | state =>
      -- the entity would be live
      obtain ⟨planned, hplan, -⟩ := Write.decision_event hdec
      rw [hkind] at hplan
      obtain ⟨-, rfl, -, -⟩ := planEvent_state hplan
      exact absurd ⟨_, hcur, rfl, rfl, rfl⟩ (hdead newState _)
    | delete =>
      obtain ⟨hnew, -⟩ := Write.refreshed_delete hkind hdec
      rw [hst, baseState_some, workOf] at hnew
      change newState = state
      split_ifs at hnew with hd
      · rw [hnew, ← hstate, hdel hkind st hst hd]
      · rw [hnew, hstate]

end

/-- **A deleted entity keeps its last live state.** In every run of `State` and `Delete` writes on
one entity, one after the other and without faults, in which a `Delete` finds the entity deleted
only if nothing is kept of it: at every point at which the entity is deleted, its current state, a
snapshot of that version and a read of that version have the last live state. The other way
round, a `Delete` of a deleted entity, in any store, leaves nothing of the state. -/
theorem deleted_keeps_last_live (srv : Server) (db : Db) {c e : String} (he : e ≠ "")
    (hkeys : (db c).config.arrayKeys = []) (hdb : db.Untouched c e)
    (hsnap : ∀ snap ∈ (db c).snapshots, snap.entityID ≠ e) (ws : List Write)
    (hws : ∀ w ∈ ws, w.coll = c ∧ w.eid = e ∧ Sends w.kind w.cmd)
    (hdel : ∀ pre w post, ws = pre ++ w :: post → w.kind = .delete →
      ∀ st, (afterWrites srv db pre c).current e = some st → st.deleted = true → st.state = []) :
    (∀ pre post state st, ws = pre ++ post → LastLive srv db c e pre state →
      (afterWrites srv db pre c).current e = some st → st.deleted = true →
      st.state = state ∧
      (∀ snap ∈ (afterWrites srv db pre c).snapshots, snap.entityID = e →
        snap.version = st.version → snap.deleted = true ∧ snap.state = state) ∧
      ReadsBack srv (afterWrites srv db pre) c e st) ∧
    ∀ (db : Db) (w : Write) st st', w.kind = .delete → (db w.coll).current w.eid = some st →
      st.deleted = true →
      ((w.prog.exec (handle srv) (fun _ _ => Fault.none) [] db).store w.coll).current w.eid =
        some st' → st' = st ∨ st'.deleted = true ∧ st'.state = [] := by
  refine ⟨fun pre post state st hsplit hlast hst hdeleted => ?_,
    fun db w st st' hkind hst hd hst' => Write.exec_delete_deleted hkind hst hd hst'⟩
  have hkept : ∀ pre post state, ws = pre ++ post → LastLive srv db c e pre state →
      ∃ st, (afterWrites srv db pre c).current e = some st ∧ st.state = state := by
    intro pre
    induction pre using List.reverseRecOn with
    | nil =>
      rintro post state - ⟨p, q, hpq, ⟨v, st, hst, -⟩, -⟩
      obtain ⟨rfl, -⟩ := append_eq_nil_iff.mp hpq.symm
      rw [show afterWrites srv db [] = db from rfl, hdb.current] at hst
      cases hst
    | append_singleton pre w ih =>
      intro post state hsplit hlast
      have hcons : ws = pre ++ w :: post := by simpa using hsplit
      obtain ⟨hcoll, heid, hsends⟩ := hws w (by simp [hcons])
      exact hlast.kept hcoll heid hsends (hdel pre w post hcons) (ih (w :: post) state hcons)
  have hsettled : Settled c e ((Session.mk [] db).run (handle srv)
      ((pre.map fun w => (w, fun _ _ => Fault.none)).map fun w => (w.1.prog, w.2))) := by
    refine .run hkeys hdb hsnap (fun w hw => ?_) (fun w hw seen call _ => ?_)
    · obtain ⟨w', hw', rfl⟩ := mem_map.mp hw
      exact hws w' (hsplit ▸ mem_append_left post hw')
    · obtain ⟨w, -, rfl⟩ := mem_map.mp hw
      rfl
  rw [map_map] at hsettled
  obtain ⟨st', hst', rfl⟩ := hkept pre post state hsplit hlast
  cases Option.some.inj (hst.symm.trans hst')
  refine ⟨rfl, fun snap hmem hsnap hv => ?_, hsettled.readsBack he (hsettled.current st hst)⟩
  have hreport := hsettled.snapshots snap hmem hsnap
  rw [hv] at hreport
  obtain ⟨hstate, hflag⟩ := hreport.unique (hsettled.replays.current st hst)
  exact ⟨hflag.trans hdeleted, hstate⟩

/-- An entity is created and deleted, with a snapshot at every version. -/
theorem deleted_keeps_last_live_once :
    let snapshotting (w : Write) : Write := { w with ing := { snapshots := true } }
    let ws := [snapshotting (.ofState "deals" "42" [("won", .bool true)]),
      snapshotting { Write.ofState "deals" "42" [] with kind := .delete }]
    let db : Db := fun _ => { config := { snapshotInterval := 1 } }
    let st : CurrentState := ⟨"42", 2, ⟨1⟩, true, [("won", .bool true)]⟩
    (afterWrites .mongo db ws "deals").current "42" = some st ∧
      (∃ snap ∈ (afterWrites .mongo db ws "deals").snapshots, snap.version = 2) ∧
      LastLive .mongo db "deals" "42" ws [("won", .bool true)] ∧
      (∀ snap ∈ (afterWrites .mongo db ws "deals").snapshots, snap.entityID = "42" →
        snap.version = 2 → snap.deleted = true ∧ snap.state = [("won", .bool true)]) ∧
      ReadsBack .mongo (afterWrites .mongo db ws) "deals" "42" st := by
  intro snapshotting ws db st
  have hst : (afterWrites .mongo db ws "deals").current "42" = some st := by decide +kernel
  have hlast : LastLive .mongo db "deals" "42" ws [("won", .bool true)] := by
    have hlive : (afterWrites .mongo db (ws.take 1) "deals").current "42" =
        some ⟨"42", 1, ⟨1⟩, false, [("won", .bool true)]⟩ := by decide +kernel
    refine ⟨ws.take 1, ws.drop 1, rfl, ⟨1, _, hlive, rfl, rfl, rfl⟩, fun q₁ q₂ hq hne s v => ?_⟩
    obtain ⟨w, rfl⟩ : ∃ w, q₁ = [w] := by
      have hlen := congrArg List.length hq
      rw [length_append, show (ws.drop 1).length = 1 from rfl] at hlen
      exact length_eq_one_iff.mp (by have := length_pos_iff.mpr hne; omega)
    obtain ⟨rfl, -⟩ := cons_eq_cons.mp hq
    rintro ⟨st', hst', hlive', -⟩
    cases Option.some.inj (hst.symm.trans hst')
    cases hlive'
  have hws : ∀ w ∈ ws, w.coll = "deals" ∧ w.eid = "42" ∧ Sends w.kind w.cmd := by
    simp only [ws, forall_mem_cons]
    exact ⟨⟨rfl, rfl, .state (by decide) ⟨by decide, by decide⟩⟩, ⟨rfl, rfl, .delete⟩, by simp⟩
  have hdel : ∀ pre w post, ws = pre ++ w :: post → w.kind = .delete →
      ∀ st, (afterWrites .mongo db pre "deals").current "42" = some st → st.deleted = true →
        st.state = [] := by
    intro pre w post hsplit hkind st hst hd
    match pre with
    | [] => cases hst
    | [w₁] =>
      obtain ⟨rfl, -⟩ := cons_eq_cons.mp hsplit
      have hlive : (afterWrites .mongo db [ws.head (by simp [ws])] "deals").current "42" =
          some ⟨"42", 1, ⟨1⟩, false, [("won", .bool true)]⟩ := by decide +kernel
      cases Option.some.inj (hlive.symm.trans hst)
      cases hd
    | _ :: _ :: _ => simp [ws] at hsplit
  obtain ⟨-, hsnaps, hreads⟩ := (deleted_keeps_last_live .mongo db (by decide) rfl ⟨rfl, rfl⟩
    (by simp [db]) ws hws hdel).1 ws [] _ st (by simp) hlast hst rfl
  exact ⟨hst, by decide +kernel, hlast, hsnaps, hreads⟩

/-- What is read of the entity at a version, by replaying its history. -/
def readState (db : Db) (c e : String) (version : Int) : Option Fields :=
  match ((stateAt false c e { version := some version }).exec (handle .mongo)
      (fun _ _ => Fault.none) [] db).value with
  | .ok res => some res.state
  | .error _ => none

/-- Two deletes in a row leave nothing of the last live state. And the history of a deleted entity
does not replay to it if a keyed array was reordered on the way, if a key has a dot, or if a state
was sent as a delete. -/
theorem second_delete_forgets :
    let state (s : Fields) : Write := .ofState "deals" "42" s
    let delete : Write := { state [] with kind := .delete }
    let sentAsDelete (s : Fields) : Write :=
      ⟨{}, ⟨⟨1⟩, ⟨1⟩⟩, .state, { collection := "deals", entityID := "42", op := some .delete,
                                 state := s }⟩
    let line (sku qty : String) := Json.obj [("qty", .str qty), ("sku", .str sku)]
    let plain : Db := fun _ => {}
    let keyed : Db := fun _ => { config := { arrayKeys := [("lines", "sku")] } }
    let current (db : Db) (ws : List Write) :=
      ((afterWrites .mongo db ws "deals").current "42").map fun st => (st.deleted, st.state)
    let read (db : Db) (ws : List Write) (v : Int) :=
      readState (afterWrites .mongo db ws) "deals" "42" v
    let live := [("won", .bool true)]
    let first := state [("lines", .arr [line "A" "1", line "B" "1"])]
    let second := state [("lines", .arr [line "B" "2", line "A" "1"])]
    -- two deletes
    (current plain [state live] = some (false, live) ∧
      current plain [state live, delete] = some (true, live) ∧
      current plain [state live, delete, delete] = some (true, [])) ∧
    -- a keyed array in another order
    (current keyed [first, second, delete] =
        some (true, [("lines", .arr [line "B" "2", line "A" "1"])]) ∧
      read keyed [first, second, delete] 3 =
        some [("lines", .arr [line "A" "1", line "B" "2"])]) ∧
    -- a key with a dot
    (current plain [state [("a.b", .null)], delete] = some (true, [("a.b", .null)]) ∧
      read plain [state [("a.b", .null)], delete] 2 = none) ∧
    -- a state sent as a delete
    (current plain [state live, sentAsDelete [("won", .bool false)], delete] =
        some (true, [("won", .bool false)]) ∧
      read plain [state live, sentAsDelete [("won", .bool false)], delete] 3 = some []) := by
  intro state delete sentAsDelete line plain keyed current read live first second
  refine ⟨⟨?_, ?_, ?_⟩, ⟨?_, ?_⟩, ⟨?_, ?_⟩, ?_, ?_⟩ <;> decide +kernel

end Letopis
