import Letopis.Writers.Owners
import Letopis.Writers.Versions

/-!
# The current state and the order of its refreshes

A write appends its event and then refreshes the current state, in two separate steps and
whatever the current state says by then. Two writers that append in one order may refresh in
the other, and the current state falls back behind the history.

It does not as long as no event is appended while another writer has yet to refresh, that is,
while the current state is behind the history (`UpToDateInserts`). Then at most one writer at
a time is between its two steps, and it is the writer of the last version (`CaughtUp`).
-/

namespace Letopis

open Interleaving List

/-- No write fails, and an event goes in only when the current state is up to date. -/
def UpToDateInserts {ι : Type} (c e : String) (_ : ι) (_ : List (Obs Storage)) (call : Call)
    (f : Fault) (db : Db) : Prop :=
  (call.isCommit → f = .none) ∧ (call.isInsert → db.curVersion c e = db.top c e)

instance {ι : Type} (c e : String) (i : ι) (seen : List (Obs Storage)) (call : Call) (f : Fault)
    (db : Db) : Decidable (UpToDateInserts c e i seen call f db) :=
  inferInstanceAs (Decidable ((_ → _) ∧ (_ → _)))

private theorem curVersion_upsert {db : Db} {c : String} {st : CurrentState} :
    (db.upsert c st).curVersion c st.entityID = st.version := by
  simp [Db.curVersion, Db.upsert_current, baseState_some_version]

private theorem curVersion_handle {srv : Server} {call : Call} {f : Fault} {db : Db} {c e : String}
    (h : ∀ st, call ≠ .upsertCurrent c st) :
    (handle srv call f db).2.curVersion c e = db.curVersion c e := by
  rcases current_handle srv call f db c e with heq | ⟨st, hcall, -⟩
  · rw [Db.curVersion, Db.curVersion, heq]
  · exact absurd hcall (h st)

private theorem top_handle {srv : Server} {call : Call} {f : Fault} {db : Db} {c e : String}
    (h : ∀ ev, call ≠ .insertEvent c ev) :
    (handle srv call f db).2.top c e = db.top c e := by
  rcases hist_handle srv call f db c e with heq | ⟨ev, hcall, -⟩
  · exact Db.top_congr heq
  · exact absurd hcall (h ev)

private theorem top_insert_error {srv : Server} {c : String} {ev : Event} {db : Db} {err : StoreErr}
    {e : String} (h : (handle srv (.insertEvent c ev) .none db).1 = .error err) :
    (handle srv (.insertEvent c ev) .none db).2.top c e = db.top c e := by
  rcases hist_handle srv (.insertEvent c ev) .none db c e with
    heq | ⟨x, hcall, -, -, hfree, hid, -⟩
  · exact Db.top_congr heq
  · cases hcall
    simp [handle, serve, hfree, hid] at h

/-! ### Who has yet to refresh -/

section

variable {ι α : Type} {cfg cfg' : Config ι Storage α Db} {c e : String}

/-- A thread is between its append and its refresh. -/
structure Pending (cfg : Config ι Storage α Db) (c : String) (i : ι) (ev : Event) : Prop where
  insert : Saw (cfg.threads i).seen (.insertEvent c ev) (.ok ())
  refresh : NoUpsert (cfg.threads i).seen c

/-- Whoever has yet to refresh has the last version, right above the current one; and if nobody
has, the current state is up to date. -/
structure CaughtUp (cfg : Config ι Storage α Db) (c e : String) : Prop where
  pending : ∀ i ev, Pending cfg c i ev →
    ev.version = cfg.store.top c e ∧ cfg.store.top c e = cfg.store.curVersion c e + 1
  settled : cfg.store.curVersion c e = cfg.store.top c e ∨ ∃ i ev, Pending cfg c i ev

theorem Pending.of_ne {i : ι} {ev : Event}
    (hseen : (cfg'.threads i).seen = (cfg.threads i).seen) :
    Pending cfg' c i ev ↔ Pending cfg c i ev :=
  ⟨fun h => ⟨hseen ▸ h.insert, hseen ▸ h.refresh⟩, fun h => ⟨hseen ▸ h.insert, hseen ▸ h.refresh⟩⟩

/-- An observation that is neither an append nor a refresh leaves what its thread has yet to
do. -/
theorem Pending.of_quiet {o : Obs Storage} {i : ι} {ev : Event}
    (hseen : (cfg'.threads i).seen = o :: (cfg.threads i).seen)
    (ho : ∀ ev, o ≠ ⟨.insertEvent c ev, .ok ()⟩) (ho' : ∀ st r, o ≠ ⟨.upsertCurrent c st, r⟩) :
    Pending cfg' c i ev ↔ Pending cfg c i ev := by
  constructor
  · rintro ⟨hins, href⟩
    rw [hseen] at hins href
    exact ⟨hins.of_cons (ho ev), fun st r hst => href st r (mem_cons_of_mem _ hst)⟩
  · rintro ⟨hins, href⟩
    refine ⟨?_, ?_⟩ <;> rw [hseen]
    · exact mem_cons_of_mem _ hins
    · exact fun st r hst => href st r (hst.of_cons (ho' st r))

theorem CaughtUp.quiet [DecidableEq ι] {i : ι} {o : Obs Storage} (hup : CaughtUp cfg c e)
    (hseen : ∀ j, (cfg'.threads j).seen = if j = i then o :: (cfg.threads i).seen
      else (cfg.threads j).seen)
    (ho : ∀ ev, o ≠ ⟨.insertEvent c ev, .ok ()⟩) (ho' : ∀ st r, o ≠ ⟨.upsertCurrent c st, r⟩)
    (htop : cfg'.store.top c e = cfg.store.top c e)
    (hcur : cfg'.store.curVersion c e = cfg.store.curVersion c e) : CaughtUp cfg' c e := by
  have hpend : ∀ j ev, Pending cfg' c j ev ↔ Pending cfg c j ev := by
    intro j ev
    by_cases hji : j = i
    · exact Pending.of_quiet (by rw [hseen, if_pos hji, hji]) ho ho'
    · exact Pending.of_ne (by rw [hseen, if_neg hji])
  refine ⟨fun j ev h => ?_, ?_⟩
  · rw [htop, hcur]
    exact hup.pending j ev ((hpend j ev).mp h)
  · rw [htop, hcur]
    exact hup.settled.imp_right fun ⟨j, ev, h⟩ => ⟨j, ev, (hpend j ev).mpr h⟩

/-- An append to an entity that is up to date: its thread is the only one that has yet to
refresh. -/
theorem CaughtUp.append [DecidableEq ι] {i : ι} {ev : Event} (hup : CaughtUp cfg c e)
    (hseen : ∀ j, (cfg'.threads j).seen = if j = i then
      ⟨.insertEvent c ev, .ok ()⟩ :: (cfg.threads i).seen else (cfg.threads j).seen)
    (hfirst : Untouched (cfg.threads i).seen c)
    (hfresh : cfg.store.curVersion c e = cfg.store.top c e)
    (hnext : ev.version = cfg.store.top c e + 1) (htop : cfg'.store.top c e = ev.version)
    (hcur : cfg'.store.curVersion c e = cfg.store.curVersion c e) : CaughtUp cfg' c e := by
  have hseen_i := hseen i
  rw [if_pos rfl] at hseen_i
  refine ⟨fun j x hj => ?_, .inr ⟨i, ev, ?_, ?_⟩⟩
  · by_cases hji : j = i
    · subst hji
      have hins := hj.insert
      rw [hseen_i] at hins
      rcases mem_cons.mp hins with heq | hold
      · cases heq
        omega
      · exact absurd hold (hfirst.noInsert x)
    · -- the others had refreshed before
      have hold : Pending cfg c j x := (Pending.of_ne (by rw [hseen, if_neg hji])).mp hj
      have := hup.pending j x hold
      omega
  · rw [hseen_i]
    exact saw_self
  · rw [hseen_i]
    exact fun st r hst => hfirst.noUpsert st r (hst.of_cons (by simp))

theorem CaughtUp.refresh [DecidableEq ι] {i : ι} {st : CurrentState}
    {r : Except StoreErr (Call.upsertCurrent c st).Value}
    (hseen : ∀ j, (cfg'.threads j).seen = if j = i then
      ⟨.upsertCurrent c st, r⟩ :: (cfg.threads i).seen else (cfg.threads j).seen)
    (honly : ∀ j x, j ≠ i → ¬ Pending cfg c j x)
    (hcur : cfg'.store.curVersion c e = cfg'.store.top c e) : CaughtUp cfg' c e := by
  refine ⟨fun j x hj => ?_, .inl hcur⟩
  by_cases hji : j = i
  · have hnone := hj.refresh st r
    rw [hseen, if_pos hji] at hnone
    exact absurd saw_self hnone
  · exact absurd ((Pending.of_ne (by rw [hseen, if_neg hji])).mp hj) (honly j x hji)

end

section

variable {ι : Type} [DecidableEq ι] {writes : ι → Write} {c e : String} {db : Db} (srv : Server)
  {sched : List (ι × Fault)} {a : ι × Fault}

/-- The writers of an entity after a schedule. -/
abbrev after (writes : ι → Write) (db : Db) (sched : List (ι × Fault)) :
    Config ι Storage (Except IngestErr IngestResult) Db :=
  (Config.initial db fun i => (writes i).prog).run (handle srv) sched

private theorem follows_after : (after srv writes db sched).Follows (fun i => (writes i).Does)
    (fun i => (writes i).Ends) := by
  have hinit : (Config.initial db fun i => (writes i).prog).Follows (fun i => (writes i).Does)
      (fun i => (writes i).Ends) := fun i => (writes i).along
  exact hinit.run sched

variable (hw : ∀ i, (writes i).coll = c ∧ (writes i).eid = e) (hseq : ∀ c e, db.Sequenced c e)
include hw

private theorem entityID_of_inserted {i : ι} {ev : Event}
    (h : Saw ((after srv writes db sched).threads i).seen (.insertEvent c ev) (.ok ())) :
    ev.entityID = e := by
  have hinit : (Config.initial db fun i => (writes i).prog).Follows (fun i => (writes i).Does)
      (fun i => (writes i).Ends) := fun i => (writes i).along
  obtain ⟨seen, hdo⟩ := hinit.made h
  obtain ⟨-, cfg, cur, planned, x, newState, deleted, last, rfl, hp, -⟩ := hdo.insert_inv
  exact hp.event.1.trans (hw i).2

include hseq

/-- **One more step.** It keeps the writers caught up, and the current version does not
decrease. -/
theorem caughtUp_step (hup : CaughtUp (after srv writes db sched) c e)
    (ha : (after srv writes db sched).StepMeets (UpToDateInserts c e) a) :
    CaughtUp ((after srv writes db sched).step (handle srv) a) c e ∧
      (after srv writes db sched).store.curVersion c e ≤
        ((after srv writes db sched).step (handle srv) a).store.curVersion c e := by
  have hvers := versionLedger_run srv (fun i => (writes i).disciplined) hseq sched
  rcases (follows_after srv).step_cases (h := handle srv) a with
    heq | ⟨call, k, hprog, hdo, hstore, hseen⟩
  · rw [heq]
    exact ⟨hup, le_rfl⟩
  obtain ⟨hfault, hfresh⟩ := ha call k hprog
  set cfg := after srv writes db sched with hcfg
  by_cases hins : ∃ x, call = .insertEvent c x
  · obtain ⟨x, rfl⟩ := hins
    have hdisc : Disciplined (cfg.threads a.1).seen (.insertEvent c x) := hdo.disciplined
    obtain ⟨hc, _, _, _, ev, _, _, last, hx, hp, -, hfirst⟩ := hdo.insert_inv
    have hxe : x.entityID = e := by
      rw [hx]
      exact hp.event.1.trans (hw a.1).2
    have hcur : (cfg.step (handle srv) a).store.curVersion c e = cfg.store.curVersion c e := by
      rw [hstore, curVersion_handle (by simp)]
    refine ⟨?_, hcur.ge⟩
    rcases hr : (handle srv (.insertEvent c x) a.2 cfg.store).1 with err | u
    · rw [hr] at hseen
      rw [hfault rfl] at hr hstore
      exact hup.quiet hseen (fun ev ho => by cases ho) (by simp)
        (by rw [hstore, top_insert_error hr]) hcur
    · obtain ⟨-, hfree, -, happ⟩ := insertEvent_ok hr
      rw [hr] at hseen
      have hnext : x.version = cfg.store.top c e + 1 := by
        rw [hdisc.version_eq (hvers.fact a.1) (hvers.inv c e) hxe hfree, (hvers.inv c e).top_eq]
      refine hup.append hseen (hc ▸ hfirst) (hfresh rfl) hnext ?_ hcur
      rw [hstore, happ, Db.top_append hxe (hnext ▸ Nat.le_succ _)]
  by_cases hups : ∃ st, call = .upsertCurrent c st
  · obtain ⟨st, rfl⟩ := hups
    obtain ⟨hc, hfirst, _, _, _, ev, last, hst, hp, hstored⟩ := hdo.upsert_inv
    rw [← hc] at hstored hfirst
    have hpend : Pending cfg c a.1 (ev.at (writes a.1).now.stored last) := ⟨hstored, hfirst⟩
    obtain ⟨hlast, hbehind⟩ := hup.pending _ _ hpend
    have htop : (cfg.step (handle srv) a).store.top c e = cfg.store.top c e := by
      rw [hstore, top_handle (by simp)]
    have hcur : (cfg.step (handle srv) a).store.curVersion c e = cfg.store.top c e := by
      have hste : st.entityID = e := by
        rw [hst]
        exact (hw a.1).2
      rw [hstore, hfault rfl, ← hlast]
      exact hste ▸ curVersion_upsert.trans (by rw [hst]; rfl)
    refine ⟨CaughtUp.refresh hseen (fun j x hj hx => ?_) (hcur.trans htop.symm), by omega⟩
    -- a second writer with the last version would have the same one
    have hx' : x.version = (ev.at (writes a.1).now.stored last).version :=
      (hup.pending j x hx).1.trans hlast.symm
    exact distinct_run j a.1 c x _ hj hx.insert hstored
      ⟨(entityID_of_inserted srv hw hx.insert).trans
        (entityID_of_inserted srv hw hstored).symm, hx'⟩
  -- calls that write no event and no current state
  rw [not_exists] at hins hups
  have hcur : (cfg.step (handle srv) a).store.curVersion c e = cfg.store.curVersion c e := by
    rw [hstore, curVersion_handle hups]
  refine ⟨hup.quiet hseen ?_ ?_ (by rw [hstore, top_handle hins]) hcur, hcur.ge⟩
  · exact fun ev ho => hins ev (Sigma.mk.inj_iff.mp ho).1
  · exact fun st r ho => hups st (Sigma.mk.inj_iff.mp ho).1

/-- **Every run.** The writers stay caught up. -/
theorem caughtUp_run (hcur : db.curVersion c e = db.top c e)
    (hm : (Config.initial db fun i => (writes i).prog).Meets (handle srv) (UpToDateInserts c e)
      sched) : CaughtUp (after srv writes db sched) c e := by
  induction sched using List.reverseRecOn with
  | nil => exact ⟨fun i ev h => absurd h.insert not_mem_nil, .inl hcur⟩
  | append_singleton s a ih =>
    obtain ⟨hs, ha⟩ := Config.meets_append.mp hm
    rw [after, Config.run_append]
    exact (caughtUp_step srv hw hseq (ih hs) ha.1).1

/-- The current version does not decrease from one state of a run to a later one. -/
theorem curVersion_le_run {s t : List (ι × Fault)} (hcur : db.curVersion c e = db.top c e)
    (hm : (Config.initial db fun i => (writes i).prog).Meets (handle srv) (UpToDateInserts c e)
      (s ++ t)) : (after srv writes db s).store.curVersion c e ≤
      (after srv writes db (s ++ t)).store.curVersion c e := by
  induction t using List.reverseRecOn with
  | nil => rw [append_nil]
  | append_singleton t a ih =>
    rw [← append_assoc] at hm ⊢
    obtain ⟨hst, ha⟩ := Config.meets_append.mp hm
    have hstep := (caughtUp_step srv hw hseq (caughtUp_run srv hw hseq hcur hst) ha.1).2
    have hrun : after srv writes db (s ++ t ++ [a]) =
        (after srv writes db (s ++ t)).step (handle srv) a := Config.run_append _ _ _ _
    rw [hrun]
    exact (ih hst).trans hstep

/-- **The current state keeps up.** Any number of concurrent writes to one entity, in a run in
which events and current states are written without failure and no event is appended while the
current state is behind the history: the version of the current state never decreases, and when
all writes have returned it is the last stored version. -/
theorem current_keepsUp (hcur : db.curVersion c e = db.top c e) (s t : List (ι × Fault))
    (hm : (Config.initial db fun i => (writes i).prog).Meets (handle srv) (UpToDateInserts c e)
      (s ++ t)) :
    (after srv writes db s).store.curVersion c e ≤
        (after srv writes db (s ++ t)).store.curVersion c e ∧
      ((after srv writes db (s ++ t)).Finished →
        (after srv writes db (s ++ t)).store.curVersion c e =
          (after srv writes db (s ++ t)).store.top c e) := by
  refine ⟨curVersion_le_run srv hw hseq hcur hm, fun hfin => ?_⟩
  rcases (caughtUp_run srv hw hseq hcur hm).settled with heq | ⟨i, ev, hins, hnone⟩
  · exact heq
  · -- a write that has inserted does not return before it refreshes
    obtain ⟨r, hr⟩ := hfin i
    rw [← (hw i).1] at hins hnone
    obtain ⟨st, reply, hups, -⟩ := ((follows_after srv).post hr).of_inserted hins
    exact absurd hups (hnone st reply)

end

/-- Two writers, one after the other. -/
theorem current_keepsUp_serial :
    let writes : Bool → Write := fun i =>
      .ofState "deals" "42" (if i then [("a", .bool true)] else [("b", .bool true)])
    let s := [true, true, true, true, true].map (·, Fault.none)
    let t := [false, false, false, false, false].map (·, Fault.none)
    (after .mongo writes (fun _ => {}) s).store.curVersion "deals" "42" ≤
        (after .mongo writes (fun _ => {}) (s ++ t)).store.curVersion "deals" "42" ∧
      ((after .mongo writes (fun _ => {}) (s ++ t)).Finished →
        (after .mongo writes (fun _ => {}) (s ++ t)).store.curVersion "deals" "42" =
          (after .mongo writes (fun _ => {}) (s ++ t)).store.top "deals" "42") := by
  refine current_keepsUp .mongo (fun i => ?_) (Db.Blank.sequenced ?_) rfl _ _ (by decide)
  · cases i <;> exact ⟨rfl, rfl⟩
  · exact fun _ => ⟨rfl, fun _ => rfl⟩

/-- Two writers that append in one order and refresh in the other: both succeed, the current
state falls back from the second version to the first and stays there. -/
theorem reordered_refreshes_fall_back :
    let writes : Bool → Write := fun i =>
      .ofState "deals" "42" (if i then [("a", .bool true)] else [("b", .bool true)])
    let cfg := after .mongo writes (fun _ => {})
      ([true, true, false, false, true, true, false, false, false].map (·, Fault.none))
    let cfg' := after .mongo writes (fun _ => {})
      ([true, true, false, false, true, true, false, false, false, true].map (·, Fault.none))
    cfg.store.curVersion "deals" "42" = 2 ∧ cfg'.store.curVersion "deals" "42" = 1 ∧
      cfg'.store.top "deals" "42" = 2 ∧ cfg'.Finished ∧
      ∀ i, ∃ v, cfg'.result i = some (.ok { entityID := "42", version := v, changesCount := 1,
                                            op := some .create }) := by
  refine ⟨by decide, by decide, by decide, Config.finished_iff.mpr (by decide), fun i => ?_⟩
  cases i
  · exact ⟨2, by decide⟩
  · exact ⟨1, by decide⟩

end Letopis
