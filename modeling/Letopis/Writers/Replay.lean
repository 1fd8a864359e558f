import Letopis.Service.Replays
import Letopis.Writers.Owners
import Letopis.Writers.Versions

/-!
# Replaying what concurrent writers have stored

The event of a `State` write records the diff between the current state the writer has read
and the state submitted. Replaying the history leads to the submitted state only if the diff
is applied to what it was computed from, that is, if the history ends at the version the
writer has read when the event goes in (`Fresh`). The append loop does not see to that: it
re-assigns the version on a conflict and keeps the diff. Two writers that start from the same
state both get their event stored, and the replay merges the two states.

`Db.Replays` is the invariant of the writers that do insert fresh events.
-/

namespace Letopis

open Interleaving

/-! ### Concurrent writers of states -/

/-- When the event goes in, the history ends at the version the writer has read. -/
def Write.Fresh (w : Write) (seen : List (Obs Storage)) (db : Db) : Prop :=
  ∀ cur, SawCurrent seen w.coll w.eid cur → (baseState cur).2 = db.top w.coll w.eid

/-- A read of the entity's current state found the given version. -/
def foundVersion (c e : String) (v : Nat) : Obs Storage → Bool
  | ⟨.getCurrent c' e', .ok st⟩ => ¬ (c' = c ∧ e' = e) ∨ st.version = v
  | ⟨.getCurrent c' e', .error .notFound⟩ => ¬ (c' = c ∧ e' = e) ∨ v = 0
  | _ => true

private theorem Write.fresh_iff {w : Write} {seen : List (Obs Storage)} {db : Db} :
    w.Fresh seen db ↔
      ∀ o ∈ seen, foundVersion w.coll w.eid (db.top w.coll w.eid) o = true := by
  constructor
  · rintro h ⟨call, r⟩ ho
    unfold foundVersion
    split
    · next c e st heq =>
      cases heq
      rw [decide_eq_true_iff, or_iff_not_imp_left, not_not]
      rintro ⟨rfl, rfl⟩
      exact (congrArg Prod.snd (baseState_some st)).symm.trans (h (some st) ho)
    · next c e heq =>
      cases heq
      rw [decide_eq_true_iff, or_iff_not_imp_left, not_not]
      rintro ⟨rfl, rfl⟩
      exact (h none ho).symm
    · rfl
  · rintro h (_ | st) hcur
    · simpa [foundVersion, baseState, eq_comm] using h _ hcur
    · rw [baseState_some]
      simpa [foundVersion] using h _ hcur

instance (w : Write) (seen : List (Obs Storage)) (db : Db) : Decidable (w.Fresh seen db) :=
  decidable_of_iff _ Write.fresh_iff.symm

/-- The write submits a regular state for the entity, with no op and no lock stated. -/
structure Write.Submits (w : Write) (c e : String) : Prop where
  kind : w.kind = .state
  op : w.cmd.op = none
  lock : w.cmd.expectedVersion = none
  coll : w.coll = c
  eid : w.eid = e
  regular : (Json.obj w.cmd.state).Regular

/-- What a writer of a state knows from an observation. -/
structure ReplayFact (state : Fields) (c e : String) (o : Obs Storage) (db : Db) : Prop where
  config : ∀ cfg, o = ⟨.ensureCollection c, .ok cfg⟩ → cfg.arrayKeys = []
  /-- A current state loaded is what the history reports at its version. -/
  loaded : ∀ st, o = ⟨.getCurrent c e, .ok st⟩ →
    Reports (db.hist c e) st.version st.state st.deleted
  /-- At the version of an event inserted, the history reports the state submitted. -/
  inserted : ∀ ev, o = ⟨.insertEvent c ev, .ok ()⟩ → Reports (db.hist c e) ev.version state false
  /-- The current state was refreshed without failure. -/
  refreshed : ∀ st r, o = ⟨.upsertCurrent c st, r⟩ → r = .ok ()

theorem ReplayFact.mono {state : Fields} {c e : String} {o : Obs Storage} {db db' : Db}
    (h : ReplayFact state c e o db) (hp : db.hist c e <+: db'.hist c e) :
    ReplayFact state c e o db' :=
  ⟨h.config, fun st ho => (h.loaded st ho).mono hp, fun ev ho => (h.inserted ev ho).mono hp,
    h.refreshed⟩

section

variable {ι : Type} (writes : ι → Write) (c e : String)

/-- What is known of the replay during a run. -/
def replayLedger : Ledger ι Storage Db where
  inv db := (db c).config.arrayKeys = [] ∧ db.Replays c e
  fact i := ReplayFact (writes i).cmd.state c e

/-- No call fails, and every event is fresh when it goes in. -/
def FreshInserts (i : ι) (seen : List (Obs Storage)) (call : Call) (f : Fault) (db : Db) : Prop :=
  f = .none ∧ (call.isInsert → (writes i).Fresh seen db)

instance (i : ι) (seen : List (Obs Storage)) (call : Call) (f : Fault) (db : Db) :
    Decidable (FreshInserts writes i seen call f db) :=
  inferInstanceAs (Decidable (_ ∧ (_ → _)))

variable {writes c e}

/-- **One call of a writer of states.** -/
theorem replayLedger_sound (hw : ∀ i, (writes i).Submits c e) (srv : Server) :
    (replayLedger writes c e).SoundOver (handle srv) (versionLedger ι)
      (fun i => (writes i).Does) (FreshInserts writes) := by
  rintro i seen call f db hdo ⟨rfl, hfresh⟩ hvinv hvfact ⟨hkeys, hrep⟩ hfact
  have hseq : db.Sequenced c e := hvinv c e
  have hprefix := hist_prefix_handle srv call .none db c e
  -- an event that goes in replays to the submitted state
  have hins : ∀ ev, call = .insertEvent c ev → ev.entityID = e → db.VersionFree c ev →
      ev.version = (db.hist c e).length + 1 ∧
        reconstruct [] false (db.hist c e ++ [ev]) = .ok ((writes i).cmd.state, false) := by
    rintro ev rfl he hfree
    refine ⟨hdo.disciplined.version_eq hvfact hseq he hfree, ?_⟩
    obtain ⟨-, cfg, cur, planned, ev₀, newState, deleted, last, rfl, plan, -⟩ := hdo.insert_inv
    obtain ⟨hkind, hop, -, hcoll, heid, hreg⟩ := hw i
    obtain ⟨hcfg, hcur, -⟩ := plan.toBased
    have hplan := plan.plan
    have hf := hfresh rfl _ hcur
    rw [hkind] at hplan
    rw [hcoll, heid] at hcur hf
    rw [hcoll] at hcfg
    have hsends : Sends .state (writes i).cmd := .state (by simp [hop]) hreg
    have hloaded : ∀ st, cur = some st → Reports (db.hist c e) st.version st.state st.deleted := by
      rintro st rfl
      exact (hfact _ hcur).loaded st rfl
    have hev : (ev₀.at (writes i).now.stored last).op = planned.op ∧
        (ev₀.at (writes i).now.stored last).changes = planned.changes := plan.event.2.2
    obtain ⟨hrec, -⟩ := hrep.concat hseq hf hloaded ((hfact _ hcfg).config _ rfl) hsends hplan hev
    obtain ⟨hnew, hdel, -⟩ := planEvent_state hplan
    rwa [hnew, hdel] at hrec
  -- a current state that is refreshed belongs to an event of the writer's own
  have hups : ∀ st, call = .upsertCurrent c st →
      Reports (db.hist c e) st.version st.state st.deleted := by
    rintro st rfl
    obtain ⟨-, -, cfg, cur, planned, ev, last, hst, plan, hsaw⟩ := hdo.upsert_inv
    have hplan := plan.plan
    rw [(hw i).kind] at hplan
    obtain ⟨hstate, hdel, -⟩ := planEvent_state hplan
    rw [(hw i).coll] at hsaw
    rw [hst, hstate, hdel]
    exact (hfact _ hsaw).inserted _ rfl
  -- the current state afterwards is the one before, or a refreshed one
  have hcurrent : ∀ st, ((handle srv call .none db).2 c).current e = some st →
      Reports (db.hist c e) st.version st.state st.deleted := by
    intro st hst
    rcases current_handle srv call .none db c e with hcur | ⟨st', hcall, -, -, hst'⟩
    · exact hrep.current st (hcur ▸ hst)
    · rw [hst'] at hst
      cases hst
      exact hups _ hcall
  refine ⟨⟨by rw [config_handle]; exact hkeys, ?_⟩, ?_, fun j o ho => ho.mono hprefix⟩
  · rcases hist_handle srv call .none db c e with heq | ⟨ev, hcall, he, -, hfree, -, happ⟩
    · refine ⟨by rw [heq]; exact hrep.prefixes, fun st hst => ?_⟩
      rw [heq]
      exact hcurrent st hst
    · exact hrep.extend happ (hins ev hcall he hfree).2 (hw i).regular
        fun st hst => (hcurrent st hst).mono hprefix
  · refine ⟨fun cfg ho => ?_, fun st ho => ?_, fun ev ho => ?_, fun st r ho => ?_⟩
    all_goals obtain ⟨rfl, hr⟩ := Sigma.mk.inj_iff.mp ho
    · rw [ensureCollection_ok (eq_of_heq hr)]
      exact hkeys
    · exact (hrep.current st (getCurrent_ok (eq_of_heq hr))).mono hprefix
    · obtain ⟨-, hfree, -, happ⟩ := insertEvent_ok (eq_of_heq hr)
      have he : ev.entityID = e := by
        obtain ⟨-, cfg, cur, planned, ev₀, newState, deleted, last, rfl, plan, -⟩ := hdo.insert_inv
        exact plan.event.1.trans (hw i).eid
      obtain ⟨hv, hrec⟩ := hins ev rfl he hfree
      rw [happ, Db.hist_append, if_pos ⟨rfl, he⟩]
      exact .of_replay (by simp [hv]) hrec
    · exact (eq_of_heq hr).symm

variable [DecidableEq ι] {db : Db} {sched : List (ι × Fault)}

/-- **Fresh inserts replay.** Any number of concurrent writers submit regular states for one
entity of a collection without array keys, no call fails and every event is fresh when it goes
in. Then the history replays at every moment, and once all writers have finished, it replays to
the state submitted by the writer of the last version, if any of them has stored an event. -/
theorem replay_lastWriter (srv : Server) (hw : ∀ i, (writes i).Submits c e)
    (hseq : ∀ c e, db.Sequenced c e) (hkeys : (db c).config.arrayKeys = [])
    (hrep : db.Replays c e)
    (hm : (Config.initial db fun i => (writes i).prog).Meets (handle srv)
      (FreshInserts writes) sched) :
    let cfg := (Config.initial db fun i => (writes i).prog).run (handle srv) sched
    let hist := cfg.store.hist c e
    (∃ s d, reconstruct [] false hist = .ok (s, d)) ∧
      (cfg.Finished → hist = db.hist c e ∨ ∃ i res, cfg.Returned i (.ok res) ∧
        res.stored = true ∧ res.version = hist.length ∧
        reconstruct [] false hist = .ok ((writes i).cmd.state, false)) := by
  intro cfg hist
  have hfollows : (Config.initial db fun i => (writes i).prog).Follows
      (fun i => (writes i).Does) (fun i => (writes i).Ends) := fun i => (writes i).along
  have hholds := ledger_run (replayLedger_sound hw srv) hseq ⟨hkeys, hrep⟩ hm
  have hfinal : cfg.store.Sequenced c e := hholds.inv.1 c e
  obtain ⟨s, d, hs, -⟩ := hholds.inv.2.2.prefixes _ le_rfl
  refine ⟨⟨s, d, hs.whole⟩, fun hdone => ?_⟩
  by_cases hlen : hist.length = (db.hist c e).length
  · -- histories only grow, so one of the old length is the old one
    exact .inl ((hist_prefix_run srv db _ sched c e).eq_of_length hlen.symm).symm
  · right
    have hgrown : (db.hist c e).length < hist.length :=
      lt_of_le_of_ne (hist_prefix_run srv db _ sched c e).length_le (Ne.symm hlen)
    obtain ⟨ev, hev, hv⟩ := hfinal.exists_version (v := hist.length) (by omega) le_rfl
    have hnone := hm.mono (D := fun _ _ _ f _ => f = Fault.none) fun _ _ _ _ _ hC => hC.1
    rcases owned_run hnone hev with hold | ⟨i, hi⟩
    · have := ((hseq c e).mem_versions hold).2
      omega
    · have hfact := (hholds.fact i _ hi).2.inserted ev rfl
      rw [hv] at hfact
      obtain ⟨r, hr⟩ := hdone i
      have hends := (hfollows.run sched).post hr
      rw [← (hw i).coll] at hi
      obtain ⟨st, reply, hups, ⟨res, rfl, hstored, hres⟩ | ⟨err, rfl⟩⟩ := hends.of_inserted hi
      · exact ⟨i, res, hr, hstored, hres.trans hv, hfact.whole⟩
      · rw [(hw i).coll] at hups
        cases (hholds.fact i _ hups).2.refreshed st _ rfl

end

/-- Two writers, one after the other. -/
theorem replay_lastWriter_serial :
    let writes : Bool → Write := fun i =>
      .ofState "deals" "42" (if i then [("a", .bool true)] else [("b", .bool true)])
    let cfg := (Config.initial (fun _ => {}) fun i => (writes i).prog).run (handle .mongo)
      ([true, true, true, true, true, false, false, false, false, false].map (·, Fault.none))
    let hist := cfg.store.hist "deals" "42"
    hist.length = 2 ∧ (∃ s d, reconstruct [] false hist = .ok (s, d)) ∧
      (cfg.Finished → hist = [] ∨ ∃ i res, cfg.Returned i (.ok res) ∧ res.stored = true ∧
        res.version = hist.length ∧
        reconstruct [] false hist = .ok ((writes i).cmd.state, false)) := by
  refine ⟨by decide, replay_lastWriter .mongo (fun i => ?_) (Db.Blank.sequenced ?_) rfl
    (Db.Untouched.replays ⟨rfl, rfl⟩) (by decide)⟩
  · cases i <;> exact ⟨rfl, rfl, rfl, rfl, rfl, by decide, by decide⟩
  · exact fun _ => ⟨rfl, fun _ => rfl⟩

/-- Two writers that read the entity before either has written: both are told that their state
is stored, and the history replays to neither of the two. -/
theorem racing_writers_replay_merged :
    let writes : Bool → Write := fun i =>
      .ofState "deals" "42" (if i then [("a", .bool true)] else [("b", .bool true)])
    let cfg := (Config.initial (fun _ => {}) fun i => (writes i).prog).run (handle .mongo)
      ([true, true, false, false, true, true, true, false, false, false].map (·, Fault.none))
    cfg.Finished ∧
      (cfg.store.hist "deals" "42").map Event.version = [1, 2] ∧
      cfg.result false = some (.ok { entityID := "42", version := 2, changesCount := 1,
                                     op := some .create }) ∧
      (writes false).cmd.state = [("b", .bool true)] ∧
      reconstruct [] false (cfg.store.hist "deals" "42") =
        .ok ([("a", .bool true), ("b", .bool true)], false) :=
  ⟨Config.finished_iff.mpr (by decide), by decide, by decide, by decide, by decide⟩

end Letopis
