import Letopis.Runs.Extend
import Letopis.Service.WriteAlone

/-!
# What a successful `State` leaves

A client that submits a full state and is told of a success takes it that the entity now exists in
that state. A success has three forms. An event was stored, and then it is so. Or there was nothing
to change, measured against a base that is empty for an entity that is absent or deleted: an empty
state submitted for such an entity leaves it absent or deleted. Or the event id was stored before,
and then the current state is left as it is, whatever state came with the id.

`state_lands_iff` tells the good cases apart, for collections in which arrays are compared by
position.
-/

namespace Letopis

open Interleaving

/-- The entity is live, in the given state and under the given version. -/
def Db.LiveIn (db : Db) (c e : String) (state : Fields) (version : Nat) : Prop :=
  ∃ st, (db c).current e = some st ∧ st.deleted = false ∧ st.state = state ∧ st.version = version

theorem Db.LiveIn.baseState_eq {db : Db} {c e : String} {state : Fields} {version : Nat}
    (h : db.LiveIn c e state version) : baseState ((db c).current e) = (state, version) := by
  obtain ⟨st, hst, hlive, rfl, rfl⟩ := h
  rw [hst, baseState_some, workOf, hlive]
  rfl

namespace Write

variable {w : Write} {srv : Server} {db : Db}

/-- The submitted state will be the live one: it is already, or it differs from the base and the
event id is a new one. -/
def Lands (w : Write) (db : Db) : Prop :=
  (∃ version, db.LiveIn w.coll w.eid w.cmd.state version) ∨
    w.cmd.state ≠ (baseState ((db w.coll).current w.eid)).1 ∧ (db w.coll).Fresh w.cmd.eventID

private theorem regular_base
    (hcur : ∀ st, (db w.coll).current w.eid = some st → (Json.obj st.state).WF) :
    (Json.obj (baseState ((db w.coll).current w.eid)).1).WF := by
  have hnil : (Json.obj []).WF := regular_nil.wf
  cases hst : (db w.coll).current w.eid with
  | none => exact hnil
  | some st =>
    rw [baseState_some, workOf]
    split_ifs
    · exact hnil
    · exact hcur st hst

section Decision

variable (hkind : w.kind = .state) (hkeys : (db w.coll).config.arrayKeys = [])
  (hstate : (Json.obj w.cmd.state).WF)
  (hcur : ∀ st, (db w.coll).current w.eid = some st → (Json.obj st.state).WF)

include hkind hkeys hstate hcur

private theorem base_of_decision_none (hdec : w.decision db = .ok none) :
    (baseState ((db w.coll).current w.eid)).1 = w.cmd.state := by
  have hplan := decision_none hdec
  rw [hkind] at hplan
  have hopts : (DiffOptions.mk (db w.coll).config.arrayKeys).arrayKeys = [] := hkeys
  exact Json.obj.inj
    ((diff_eq_nil_iff hopts (regular_base hcur) hstate).mp (planEvent_state_noChange hplan))

/-- A submitted state that comes to an event differs from the base, and is what the event leads
to. -/
theorem of_decision_some {ev : Event} {newState : Fields} {deleted : Bool}
    (hdec : w.decision db = .ok (some (ev, newState, deleted))) :
    (baseState ((db w.coll).current w.eid)).1 ≠ w.cmd.state ∧ newState = w.cmd.state ∧
      deleted = false := by
  obtain ⟨planned, hplan, -⟩ := decision_event hdec
  rw [hkind] at hplan
  obtain ⟨hnew, hdel, -, -⟩ := planEvent_state hplan
  refine ⟨fun heq => ?_, hnew, hdel⟩
  have hopts : (DiffOptions.mk (db w.coll).config.arrayKeys).arrayKeys = [] := hkeys
  have hnil := (diff_eq_nil_iff hopts (regular_base hcur) hstate).mpr (congrArg Json.obj heq)
  simp only [planEvent, hnil, if_true] at hplan
  cases hplan

end Decision

private theorem eventIDFree_next_iff {ev : Event} {newState : Fields} {deleted : Bool}
    (hdec : w.decision db = .ok (some (ev, newState, deleted))) :
    db.EventIDFree w.coll (w.next db ev) ↔ (db w.coll).Fresh w.cmd.eventID := by
  obtain ⟨-, -, -, -, hid⟩ := decision_event hdec
  have hnext : (w.next db ev).eventID = w.cmd.eventID := hid
  rw [Db.EventIDFree, Coll.Fresh, hnext]

/-- **A success of `State`.** Without array keys, without faults and without interference, a
`State` that succeeds leaves the entity live in the submitted state, under the version returned,
exactly if that is its state already or the state differs from the base and the event id is
new. -/
theorem state_lands_iff (hkind : w.kind = .state) (hkeys : (db w.coll).config.arrayKeys = [])
    (hstate : (Json.obj w.cmd.state).WF)
    (hcur : ∀ st, (db w.coll).current w.eid = some st → (Json.obj st.state).WF)
    {res : IngestResult}
    (hres : (w.prog.exec (handle srv) (fun _ _ => Fault.none) [] db).value = .ok res) :
    (w.prog.exec (handle srv) (fun _ _ => Fault.none) [] db).store.LiveIn w.coll w.eid
      w.cmd.state res.version ↔ w.Lands db := by
  have heff := w.exec_faultless srv db
  dsimp only at heff
  rw [hres] at heff
  generalize (w.prog.exec (handle srv) (fun _ _ => Fault.none) [] db).store = db' at heff ⊢
  cases heff with
  | noChange hdec =>
    have hbase := base_of_decision_none hkind hkeys hstate hcur hdec
    constructor
    · intro hlive
      exact .inl ⟨_, hlive⟩
    · rintro (⟨version, hlive⟩ | ⟨hne, -⟩)
      · have hversion : db.curVersion w.coll w.eid = version := by
          rw [Db.curVersion, hlive.baseState_eq]
        rwa [hversion]
      · exact absurd hbase.symm hne
  | repeated hdec htaken =>
    obtain ⟨hne, -, -⟩ := of_decision_some hkind hkeys hstate hcur hdec
    have hdead : ∀ version, ¬ db.LiveIn w.coll w.eid w.cmd.state version := by
      intro version hlive
      exact hne (by rw [hlive.baseState_eq])
    constructor
    · intro hlive
      exact absurd hlive (hdead _)
    · rintro (⟨version, hlive⟩ | ⟨-, hfresh⟩)
      · exact absurd hlive (hdead version)
      · exact absurd ((eventIDFree_next_iff hdec).mpr hfresh) htaken
  | stored hdec hfree _ hnew =>
    obtain ⟨hne, rfl, rfl⟩ := of_decision_some hkind hkeys hstate hcur hdec
    constructor
    · intro _
      exact .inr ⟨hne.symm, (eventIDFree_next_iff hdec).mp hfree⟩
    · intro _
      exact ⟨_, hnew, rfl, rfl, rfl⟩

/-- An entity is created, deleted and created again. -/
theorem state_lands_iff_revived :
    let run (w : Write) (db : Db) := w.prog.exec (handle .mongo) (fun _ _ => Fault.none) [] db
    let w (won : Bool) : Write := .ofState "deals" "42" [("won", .bool won)]
    let db := (run { w false with kind := .delete } (run (w false) fun _ => {}).store).store
    ∃ res, (run (w true) db).value = .ok res ∧ res.version = 3 ∧
      ((run (w true) db).store.LiveIn "deals" "42" [("won", .bool true)] res.version ↔
        (w true).Lands db) := by
  intro run w db
  have hres : (run (w true) db).value =
      .ok { entityID := "42", version := 3, changesCount := 1, op := some .create } := by
    decide +kernel
  have hcur : (db "deals").current "42" = some ⟨"42", 2, ⟨1⟩, true, [("won", .bool false)]⟩ := by
    decide +kernel
  have hkeys : (db "deals").config.arrayKeys = [] := by decide +kernel
  clear_value db
  refine ⟨_, hres, rfl, state_lands_iff rfl hkeys (by decide) (fun st hst => ?_) hres⟩
  cases Option.some.inj (hcur.symm.trans hst)
  decide

/-- Three successes after which the entity is not in the submitted state: an empty state for an
entity that is absent, one for an entity that is deleted, and another state under an event id that
is stored. -/
theorem success_without_state :
    let run (w : Write) (db : Db) := w.prog.exec (handle .mongo) (fun _ _ => Fault.none) [] db
    let empty : Write := .ofState "deals" "42" []
    let withID (won : Bool) : Write :=
      ⟨{}, ⟨⟨1⟩, ⟨1⟩⟩, .state, { collection := "deals", entityID := "42", eventID := "k1",
                                 state := [("won", .bool won)] }⟩
    let absent : Db := fun _ => {}
    let stored := (run (withID false) absent).store
    let deleted := (run { empty with kind := .delete } stored).store
    ((run empty absent).value = .ok { entityID := "42", version := 0, noChanges := true } ∧
      ((run empty absent).store "deals").current "42" = none) ∧
    ((run empty deleted).value = .ok { entityID := "42", version := 2, noChanges := true } ∧
      ((run empty deleted).store "deals").current "42" =
        some ⟨"42", 2, ⟨1⟩, true, [("won", .bool false)]⟩) ∧
    (run (withID true) stored).value =
        .ok { entityID := "42", version := 1, deduplicated := true } ∧
      ((run (withID true) stored).store "deals").current "42" =
        some ⟨"42", 1, ⟨1⟩, false, [("won", .bool false)]⟩ := by
  decide +kernel

end Write

end Letopis
