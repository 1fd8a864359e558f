import Letopis.Service.Ingest
import Letopis.Storage.Histories

/-!
# Histories that replay

The event of a `State` write records the diff between the current state the writer has read and
the state submitted; that of a `Delete` records nothing. Appended to a history that stands where
the writer has read it, the event replays to the state it was planned for.

`Db.Replays` is what such appends keep: every prefix of the history replays to a regular state,
and the current state is what the history reports at its version.
-/

namespace Letopis

open List

/-! ### What is planned -/

section Planning

variable {received : Time} {cfg : CollectionConfig} {cmd : IngestCommand}
  {cur : Option CurrentState} {ev : Event} {newState : Fields} {deleted : Bool}

/-- What a `State` command plans: the diff from the base to the submitted state. -/
theorem planEvent_state
    (h : planEvent received cfg .state cmd cur = .ok (.write ev newState deleted)) :
    newState = cmd.state ∧ deleted = false ∧ ev.op = resolveOp cmd.op cur cfg ∧
      ev.changes =
        diff (.obj (baseState cur).1) (.obj cmd.state) { arrayKeys := cfg.arrayKeys } := by
  simp only [planEvent] at h
  split_ifs at h
  · cases h
  · cases h
    exact ⟨rfl, rfl, rfl, rfl⟩

theorem planEvent_state_noChange (h : planEvent received cfg .state cmd cur = .ok .noChange) :
    diff (.obj (baseState cur).1) (.obj cmd.state) { arrayKeys := cfg.arrayKeys } = [] := by
  simp only [planEvent] at h
  split_ifs at h with hdiff
  · exact hdiff
  · cases h

theorem planEvent_delete
    (h : planEvent received cfg .delete cmd cur = .ok (.write ev newState deleted)) :
    newState = (baseState cur).1 ∧ deleted = true ∧ ev.op = .delete := by
  cases h
  exact ⟨rfl, rfl, rfl⟩

theorem resolveOp_ne_delete {op : Option EntityOp} (hop : op ≠ some .delete) :
    resolveOp op cur cfg ≠ .delete := by
  have hfirst : resolveOp.firstOp cfg ≠ .delete := by
    unfold resolveOp.firstOp
    split <;> simp
  cases op with
  | some op => exact fun h => hop (congrArg some h)
  | none =>
    cases cur with
    | none => exact hfirst
    | some st =>
      simp only [resolveOp]
      split_ifs
      · exact hfirst
      · simp

end Planning

theorem baseState_some (st : CurrentState) :
    baseState (some st) = (workOf st.state st.deleted, st.version) := by
  simp only [baseState, workOf]
  split_ifs <;> rfl

theorem regular_nil : (Json.obj []).Regular := by
  rw [Json.regular_obj_iff]
  exact ⟨SortedAssoc.sorted_nil, fun p hp => absurd hp not_mem_nil⟩

theorem regular_workOf {state : Fields} {deleted : Bool} (h : (Json.obj state).Regular) :
    (Json.obj (workOf state deleted)).Regular := by
  rw [workOf]
  split_ifs
  · exact regular_nil
  · exact h

/-- The command sends a full regular state, or deletes. -/
inductive Sends : Kind → IngestCommand → Prop
  | state {cmd} (op : cmd.op ≠ some .delete) (regular : (Json.obj cmd.state).Regular) :
      Sends .state cmd
  | delete {cmd} : Sends .delete cmd

/-! ### Histories -/

/-- Every prefix of the entity's history replays to a regular state, and the current state is
what the history reports at its version. -/
structure Db.Replays (db : Db) (c e : String) : Prop where
  prefixes : ∀ k ≤ (db.hist c e).length, ∃ s d, Reports (db.hist c e) k s d ∧
    (Json.obj s).Regular
  current : ∀ st, (db c).current e = some st →
    Reports (db.hist c e) st.version st.state st.deleted

variable {db : Db} {c e : String}

theorem Db.Untouched.replays (h : db.Untouched c e) : db.Replays c e := by
  refine ⟨fun k hk => ⟨[], false, ⟨hk, by simp [h.hist]⟩, regular_nil⟩, fun st hst => ?_⟩
  rw [h.current] at hst
  cases hst

theorem Db.Replays.base (h : db.Replays c e) (hseq : db.Sequenced c e)
    {cur : Option CurrentState} (hfresh : (baseState cur).2 = db.top c e)
    (hcur : ∀ st, cur = some st → Reports (db.hist c e) st.version st.state st.deleted) :
    ∃ s d, reconstruct [] false (db.hist c e) = .ok (s, d) ∧ workOf s d = (baseState cur).1 ∧
      (Json.obj s).Regular := by
  rw [hseq.top_eq] at hfresh
  cases cur with
  | none =>
    have hnil : db.hist c e = [] := length_eq_zero_iff.mp hfresh.symm
    exact ⟨[], false, by rw [hnil]; rfl, rfl, regular_nil⟩
  | some st =>
    rw [baseState_some] at hfresh ⊢
    obtain ⟨s, d, hs, hreg⟩ := h.prefixes _ le_rfl
    have hst := hcur st rfl
    rw [show st.version = (db.hist c e).length from hfresh] at hst
    obtain ⟨rfl, rfl⟩ := hs.unique hst
    exact ⟨_, _, hst.whole, rfl, hreg⟩

/-- **A fresh event replays to the state it was planned for.** -/
theorem Db.Replays.concat (h : db.Replays c e) (hseq : db.Sequenced c e)
    {cur : Option CurrentState} (hfresh : (baseState cur).2 = db.top c e)
    (hcur : ∀ st, cur = some st → Reports (db.hist c e) st.version st.state st.deleted)
    {received : Time} {cfg : CollectionConfig} {kind : Kind} {cmd : IngestCommand}
    {planned ev : Event} {newState : Fields} {deleted : Bool} (hkeys : cfg.arrayKeys = [])
    (hcmd : Sends kind cmd)
    (hplan : planEvent received cfg kind cmd cur = .ok (.write planned newState deleted))
    (hev : ev.op = planned.op ∧ ev.changes = planned.changes) :
    reconstruct [] false (db.hist c e ++ [ev]) = .ok (newState, deleted) ∧
      (Json.obj newState).Regular := by
  obtain ⟨s, d, hs, hbase, hsreg⟩ := h.base hseq hfresh hcur
  rw [reconstruct_concat hs]
  cases hcmd with
  | state hop hreg =>
    obtain ⟨hnew, hdel, hpop, hpch⟩ := planEvent_state hplan
    have hevop : ev.op ≠ .delete := by
      rw [hev.1, hpop]
      exact resolveOp_ne_delete hop
    have hch : ev.changes = diff (.obj (workOf s d)) (.obj cmd.state) ⟨cfg.arrayKeys⟩ := by
      rw [hev.2, hpch, hbase]
    rw [hnew, hdel]
    exact ⟨replayStep_diff (show (DiffOptions.mk cfg.arrayKeys).arrayKeys = [] from hkeys) hevop
      hch (regular_workOf hsreg) hreg, hreg⟩
  | delete =>
    obtain ⟨hnew, hdel, hpop⟩ := planEvent_delete hplan
    rw [hnew, hdel, ← hbase]
    exact ⟨replayStep_delete (hev.1.trans hpop), regular_workOf hsreg⟩

theorem Db.Replays.extend {db' : Db} (h : db.Replays c e) {x : Event} {s : Fields} {d : Bool}
    (hist : db'.hist c e = db.hist c e ++ [x])
    (hrec : reconstruct [] false (db.hist c e ++ [x]) = .ok (s, d)) (hreg : (Json.obj s).Regular)
    (hcur : ∀ st, (db' c).current e = some st →
      Reports (db'.hist c e) st.version st.state st.deleted) : db'.Replays c e := by
  refine ⟨fun k hk => ?_, hcur⟩
  rw [hist] at hk ⊢
  rw [length_append, length_singleton] at hk
  rcases Nat.lt_or_ge k ((db.hist c e).length + 1) with hlt | hge
  · obtain ⟨s', d', hs', hreg'⟩ := h.prefixes k (by omega)
    exact ⟨s', d', hs'.mono (prefix_append _ _), hreg'⟩
  · exact ⟨s, d, .of_replay (by simp; omega) hrec, hreg⟩

end Letopis
