import Letopis.Writers.Replay

/-!
# The optimistic lock

A command may carry the version it expects the entity to be at. The check compares it with the
current state the write has read; the append later takes whatever version is free. Between the
two, other writers may append, and the locked event then lands at a higher version than the
one above the expected: of several commands that expect the same version more than one can be
stored.

The lock does what it says when the locked event is fresh as it goes in (`Write.Fresh`), that
is, when nothing was appended since the read. `LockKept` adds what is no matter of the lock: a
locked command that passes its check plans an event, and its event id is not taken.
-/

namespace Letopis

open Interleaving

/-- The plan is to store an event. -/
def isWrite : Except IngestErr Plan → Bool
  | .ok (.write _ _ _) => true
  | _ => false

/-- If its check passes on the current state stored, the write plans an event. -/
def Write.Plans (w : Write) (db : Db) : Prop :=
  let cur := (db w.coll).current w.eid
  versionMatches w.cmd.expectedVersion (baseState cur).2 = true →
    isWrite (planEvent w.now.received (db w.coll).config w.kind w.cmd cur) = true

instance (w : Write) (db : Db) : Decidable (w.Plans db) := inferInstanceAs (Decidable (_ → _))

/-- No pre-store plugin rejects an event of the write. -/
def Write.Unrejected (w : Write) (cfg : CollectionConfig) : Prop :=
  ∀ prev ev err, runPreStore cfg w.coll prev w.ing.pre ev ≠ .error err

/-- No call fails; and a locked command plans an event when it reads the entity, and inserts a
fresh event under an unused event id. -/
def LockKept {ι : Type} (writes : ι → Write) (i : ι) (seen : List (Obs Storage)) (call : Call)
    (f : Fault) (db : Db) : Prop :=
  f = .none ∧ ((writes i).cmd.expectedVersion ≠ none → match call with
    | .getCurrent _ _ => (writes i).Plans db
    | .insertEvent c ev => (writes i).Fresh seen db ∧ db.EventIDFree c ev
    | _ => True)

instance {ι : Type} (writes : ι → Write) (i : ι) (seen : List (Obs Storage)) (call : Call)
    (f : Fault) (db : Db) : Decidable (LockKept writes i seen call f db) := by
  unfold LockKept
  cases call <;> infer_instance

private theorem not_fatal {srv : Server} {call : Call} {db : Db} {err : StoreErr}
    (h : (handle srv call .none db).1 = .error err) : ¬ Write.Fatal call err := by
  cases call with
  | getCurrent c e | lastEvent c e =>
    simp only [handle, serve, orNotFound] at h
    split at h
    · cases h
      simp [Write.Fatal]
    · cases h
  | ensureCollection c => cases h
  | lastVersion c e => cases h
  | _ => simp [Write.Fatal]

/-- What a write of the entity knows from an observation, where no call fails. -/
structure LockFact (w : Write) (cfg : CollectionConfig) (o : Obs Storage) : Prop where
  /-- The configuration is the one of the collection. -/
  config : ∀ r, o = ⟨.ensureCollection w.coll, .ok r⟩ → r = cfg
  read : ∀ call err, o = ⟨call, .error err⟩ → ¬ Write.Fatal call err
  /-- The current state was refreshed without failure. -/
  refreshed : ∀ st err, o ≠ ⟨.upsertCurrent w.coll st, .error err⟩
  /-- A locked command that passes its check plans an event. -/
  plans : w.cmd.expectedVersion ≠ none → ∀ cur, SawCurrent [o] w.coll w.eid cur →
    versionMatches w.cmd.expectedVersion (baseState cur).2 = true →
    isWrite (planEvent w.now.received cfg w.kind w.cmd cur) = true
  /-- An event inserted is of the entity, and a locked one has the version above the expected
  one. -/
  inserted : ∀ ev, o = ⟨.insertEvent w.coll ev, .ok ()⟩ → ev.entityID = w.eid ∧
    ∀ n, w.cmd.expectedVersion = some n → (ev.version : Int) = n + 1
  /-- A locked event refused has met another one of its version. -/
  refused : w.cmd.expectedVersion ≠ none → ∀ ev err,
    o = ⟨.insertEvent w.coll ev, .error err⟩ → isDupKeyOn err .eventVersion = true

private theorem sawCurrent_singleton {o : Obs Storage} {c e : String} {cur : Option CurrentState} :
    SawCurrent [o] c e cur ↔ match cur with
      | none => o = ⟨.getCurrent c e, .error .notFound⟩
      | some st => o = ⟨.getCurrent c e, .ok st⟩ := by
  cases cur <;> simp [SawCurrent, Saw, eq_comm]

theorem SawCurrent.exists_mem {seen : List (Obs Storage)} {c e : String}
    {cur : Option CurrentState} (h : SawCurrent seen c e cur) :
    ∃ o ∈ seen, SawCurrent [o] c e cur := by
  cases cur with
  | none => exact ⟨_, h, List.mem_singleton_self _⟩
  | some st => exact ⟨_, h, List.mem_singleton_self _⟩

/-- **How a locked write ends**, where no call fails and no plugin rejects its event. -/
theorem Write.Ends.of_locked {w : Write} {cfg : CollectionConfig}
    {r : Except IngestErr IngestResult} {seen : List (Obs Storage)} (h : w.Ends r seen)
    (hfact : ∀ o ∈ seen, LockFact w cfg o) (hhook : w.Unrejected cfg) {n : Int}
    (hn : w.cmd.expectedVersion = some n) :
    (∃ res ev, r = .ok res ∧ res.stored = true ∧ (res.version : Int) = n + 1 ∧
      ev.entityID = w.eid ∧ ev.version = res.version ∧
      Saw seen (.insertEvent w.coll ev) (.ok ())) ∨
    (r = .error .versionConflict ∧ ∀ ev, ¬ Saw seen (.insertEvent w.coll ev) (.ok ())) := by
  have hlocked : w.cmd.expectedVersion ≠ none := by simp [hn]
  -- a locked command that passed its check has planned an event
  have hplans : ∀ cfg' cur, w.Based seen cfg' cur → cfg' = cfg ∧
      isWrite (planEvent w.now.received cfg' w.kind w.cmd cur) = true := by
    intro cfg' cur hb
    obtain ⟨o, ho, hcur⟩ := hb.current.exists_mem
    have hcfg := (hfact _ hb.config).config _ rfl
    exact ⟨hcfg, hcfg ▸ (hfact o ho).plans hlocked cur hcur hb.lock⟩
  cases h with
  | stored plan insert only upsert =>
    obtain ⟨he, hv⟩ := (hfact _ insert).inserted _ rfl
    exact .inl ⟨_, _, rfl, rfl, hv n hn, he, rfl, insert⟩
  | locked config current lock none => exact .inr ⟨rfl, none.noInsert⟩
  | exhausted plan none => exact .inr ⟨rfl, none.noInsert⟩
  -- no other end is open to it: something would have failed, or nothing was planned
  | noChange base plan none =>
    have := (hplans _ _ base).2
    rw [plan] at this
    cases this
  | unplanned base plan none =>
    have := (hplans _ _ base).2
    rw [plan] at this
    cases this
  | duplicate plan refused race index none =>
    rw [(hfact _ refused).refused hlocked _ _ rfl] at race
    cases race
  | refused plan failed index none =>
    have := (hfact _ failed).refused hlocked _ _ rfl
    rw [index] at this
    cases this
  | stale plan insert only upsert => exact absurd rfl ((hfact _ upsert).refreshed _ _)
  | unread failed fatal none => exact absurd fatal ((hfact _ failed).read _ _ rfl)
  | rejected base plan hooked none =>
    rw [(hplans _ _ base).1, Write.Hooked] at hooked
    split_ifs at hooked
    obtain ⟨last, -, hrun⟩ := hooked
    exact absurd hrun (hhook _ _ _)

section

variable {ι : Type} (writes : ι → Write) (c e : String) (cfg : CollectionConfig)

/-- The ledger of locked writes. -/
def lockLedger : Ledger ι Storage Db where
  inv db := (db c).config = cfg
  fact i o _ := LockFact (writes i) cfg o

variable {writes c e cfg}

/-- **One call of a locked writer.** -/
theorem lockLedger_sound (hw : ∀ i, (writes i).coll = c ∧ (writes i).eid = e) (srv : Server) :
    (lockLedger writes c cfg).SoundOver (handle srv) (versionLedger ι)
      (fun i => (writes i).Does) (LockKept writes) := by
  rintro i seen call f db hdo ⟨rfl, hlock⟩ hvinv hvfact hcfg hfact
  obtain ⟨hcoll, heid⟩ := hw i
  have hseq : db.Sequenced c e := hvinv c e
  refine ⟨config_handle.trans hcfg, ?_, fun _ _ ho => ho⟩
  refine ⟨fun r ho => ?_, fun call' err ho => ?_, fun st err ho => ?_, fun hn cur hcur => ?_,
    fun ev ho => ?_, fun hn ev err ho => ?_⟩
  · obtain ⟨rfl, hr⟩ := Sigma.mk.inj_iff.mp ho
    rw [ensureCollection_ok (eq_of_heq hr), hcoll]
    exact hcfg
  · obtain ⟨rfl, hr⟩ := Sigma.mk.inj_iff.mp ho
    exact not_fatal (eq_of_heq hr)
  · obtain ⟨rfl, hr⟩ := Sigma.mk.inj_iff.mp ho
    cases eq_of_heq hr
  · have hread : call = .getCurrent (writes i).coll (writes i).eid ∧
        (db (writes i).coll).current (writes i).eid = cur := by
      rw [sawCurrent_singleton] at hcur
      cases cur with
      | none =>
        obtain ⟨rfl, hr⟩ := Sigma.mk.inj_iff.mp hcur
        exact ⟨rfl, getCurrent_notFound (eq_of_heq hr)⟩
      | some st =>
        obtain ⟨rfl, hr⟩ := Sigma.mk.inj_iff.mp hcur
        exact ⟨rfl, getCurrent_ok (eq_of_heq hr)⟩
    obtain ⟨rfl, rfl⟩ := hread
    have hplans : (writes i).Plans db := hlock hn
    rw [Write.Plans, hcoll] at hplans
    rw [hcoll, ← hcfg]
    exact hplans
  · obtain ⟨rfl, hr⟩ := Sigma.mk.inj_iff.mp ho
    obtain ⟨-, hfree, -, -⟩ := insertEvent_ok (eq_of_heq hr)
    obtain ⟨-, cfg', cur, planned, ev₀, newState, deleted, last, rfl, plan, -⟩ := hdo.insert_inv
    have hnext := hdo.disciplined.version_eq hvfact (hvinv _ _) plan.event.1 hfree
    refine ⟨plan.event.1, fun n hn => ?_⟩
    have hf := (hlock (by simp [hn])).1 cur plan.current
    have hpass := plan.lock
    rw [hn, versionMatches, decide_eq_true_iff] at hpass
    rw [hf, (hvinv _ _).top_eq] at hpass
    omega
  · obtain ⟨rfl, hr⟩ := Sigma.mk.inj_iff.mp ho
    have hid : db.EventIDFree (writes i).coll ev := (hlock hn).2
    have hreply := eq_of_heq hr
    simp only [handle, serve, hid, not_true_eq_false, if_false] at hreply
    split_ifs at hreply with hv
    cases hreply
    exact srv.names_index _ _ _

variable [DecidableEq ι] {db : Db} {sched : List (ι × Fault)}

/-- **The lock, when it is kept.** Any number of concurrent writers of one entity, no call
fails, and locked commands plan events that no plugin rejects and insert them fresh. Then a
locked command that has returned has its event stored right above the expected version, or it
reports a version conflict; and of all commands that expect the same version at most one has
stored an event. -/
theorem lock_keeps_version (srv : Server)
    (hw : ∀ i, (writes i).coll = c ∧ (writes i).eid = e)
    (hseq : ∀ c e, db.Sequenced c e)
    (hhook : ∀ i, (writes i).cmd.expectedVersion ≠ none → (writes i).Unrejected (db c).config)
    (hm : (Config.initial db fun i => (writes i).prog).Meets (handle srv)
      (LockKept writes) sched) :
    let cfg := (Config.initial db fun i => (writes i).prog).run (handle srv) sched
    (∀ i n, (writes i).cmd.expectedVersion = some n → ∀ r, cfg.Returned i r →
      (∃ res, r = .ok res ∧ res.stored = true ∧ (res.version : Int) = n + 1 ∧
        ∃ ev ∈ cfg.store.hist c e, ev.version = res.version ∧
          Saw (cfg.threads i).seen (.insertEvent c ev) (.ok ())) ∨
      (r = .error .versionConflict ∧
        ∀ ev, ¬ Saw (cfg.threads i).seen (.insertEvent c ev) (.ok ()))) ∧
    ∀ i j n, i ≠ j → (writes i).cmd.expectedVersion = some n →
      (writes j).cmd.expectedVersion = some n → ∀ ev ev',
        Saw (cfg.threads i).seen (.insertEvent c ev) (.ok ()) →
        ¬ Saw (cfg.threads j).seen (.insertEvent c ev') (.ok ()) := by
  intro cfg
  have hfollows : (Config.initial db fun i => (writes i).prog).Follows
      (fun i => (writes i).Does) (fun i => (writes i).Ends) := fun i => (writes i).along
  have hholds := ledger_run (L := lockLedger writes c (db c).config) (lockLedger_sound hw srv) hseq
    rfl hm
  have hfact : ∀ i, ∀ o ∈ (cfg.threads i).seen, LockFact (writes i) (db c).config o :=
    fun i o ho => (hholds.fact i o ho).2
  constructor
  · intro i n hn r hr
    obtain ⟨hcoll, heid⟩ := hw i
    have hends : (writes i).Ends r (cfg.threads i).seen := (hfollows.run sched).post hr
    rcases hends.of_locked (hfact i) (hhook i (by simp [hn])) hn with
      ⟨res, ev, rfl, hstored, hv, he, hver, hsaw⟩ | ⟨rfl, hnone⟩
    · rw [hcoll] at hsaw
      exact .inl ⟨res, rfl, hstored, hv, ev,
        Db.mem_hist.mpr ⟨inserted_run hsaw, he.trans heid⟩, hver, hsaw⟩
    · exact .inr ⟨rfl, hcoll ▸ hnone⟩
  · intro i j n hij hi hj ev ev' hsaw hsaw'
    obtain ⟨hei, hvi⟩ := (hfact i _ hsaw).inserted ev (by rw [(hw i).1])
    obtain ⟨hej, hvj⟩ := (hfact j _ hsaw').inserted ev' (by rw [(hw j).1])
    refine distinct_run i j c ev ev' hij hsaw hsaw' ⟨?_, ?_⟩
    · rw [hei, hej, (hw i).2, (hw j).2]
    · have := (hvi n hi).trans (hvj n hj).symm
      omega

end

/-- A write of a state that expects the entity to be at a version. -/
def Write.ofStateAt (c e : String) (n : Int) (state : Fields) : Write :=
  { Write.ofState c e state with
    cmd := { collection := c, entityID := e, state, expectedVersion := some n } }

/-- Two commands that expect version zero, one after the other: the second one is told of the
conflict. -/
theorem lock_keeps_version_serial :
    let writes : Bool → Write := fun i => .ofStateAt "deals" "42" 0 [("won", .bool i)]
    let cfg := (Config.initial (fun _ => {}) fun i => (writes i).prog).run (handle .mongo)
      ([true, true, true, true, true, false, false].map (·, Fault.none))
    (cfg.result true = some (.ok { entityID := "42", version := 1, changesCount := 1,
                                   op := some .create }) ∧
      cfg.result false = some (.error .versionConflict)) ∧
    (∀ i n, (writes i).cmd.expectedVersion = some n → ∀ r, cfg.Returned i r →
      (∃ res, r = .ok res ∧ res.stored = true ∧ (res.version : Int) = n + 1 ∧
        ∃ ev ∈ cfg.store.hist "deals" "42", ev.version = res.version ∧
          Saw (cfg.threads i).seen (.insertEvent "deals" ev) (.ok ())) ∨
      (r = .error .versionConflict ∧
        ∀ ev, ¬ Saw (cfg.threads i).seen (.insertEvent "deals" ev) (.ok ()))) ∧
    ∀ i j n, i ≠ j → (writes i).cmd.expectedVersion = some n →
      (writes j).cmd.expectedVersion = some n → ∀ ev ev',
        Saw (cfg.threads i).seen (.insertEvent "deals" ev) (.ok ()) →
        ¬ Saw (cfg.threads j).seen (.insertEvent "deals" ev') (.ok ()) := by
  refine ⟨⟨by decide, by decide⟩, lock_keeps_version .mongo (fun i => ⟨rfl, rfl⟩)
    (Db.Blank.sequenced fun _ => ⟨rfl, fun _ => rfl⟩) (fun i _ prev ev err h => ?_) (by decide)⟩
  cases h

/-- Two commands that expect version zero and read the entity before either has written: both
are stored, the second one at version two. -/
theorem racing_locks_both_stored :
    let writes : Bool → Write := fun i => .ofStateAt "deals" "42" 0 [("won", .bool i)]
    let cfg := (Config.initial (fun _ => {}) fun i => (writes i).prog).run (handle .mongo)
      ([true, true, false, false, true, true, true, false, false, false].map (·, Fault.none))
    (∀ i, (writes i).cmd.expectedVersion = some 0) ∧
      cfg.result true = some (.ok { entityID := "42", version := 1, changesCount := 1,
                                    op := some .create }) ∧
      cfg.result false = some (.ok { entityID := "42", version := 2, changesCount := 1,
                                     op := some .create }) ∧
      (cfg.store.hist "deals" "42").map Event.version = [1, 2] :=
  ⟨fun _ => rfl, by decide, by decide, by decide⟩

end Letopis
