import Letopis.Service.WriteAlone

/-!
# A batch and its items one by one

`IngestBatch` sequences the items of a collection in memory and writes them at the end; the path of
single writes goes to the store for every one of them. When the current states are up to date,
nothing is locked and the event ids are new, the two come to the same: the same failures, the same
stored events, current states and snapshots (`ingestBatch_eq_oneByOne_serve`).

The proof is a simulation within each collection. `Fold.Tracks` relates the fold of the batch to
the collection that the items have left so far when applied one by one: what the fold remembers of
an entity is what the collection now holds of it, and what the fold has gathered, written out, turns
the collection the batch has started from into that collection.
-/

namespace Letopis

open Interleaving List Function

namespace Batch

variable (srv : Server) (b : Batch)

/-- The items as writes of their own, one after the other. -/
def oneByOneFrom : List (BatchItem × Nat) → Prog Storage (List (Except IngestErr IngestResult))
  | [] => return []
  | (it, k) :: items => do
    let r ← (b.write it k).prog
    let rs ← oneByOneFrom items
    return r :: rs

/-- The items of the batch one after the other. -/
def oneByOne : Prog Storage (List (Except IngestErr IngestResult)) :=
  b.oneByOneFrom b.items.zipIdx

end Batch

/-- The failure of a write, if it failed. -/
def failure : Except IngestErr IngestResult → Option IngestErr
  | .error e => some e
  | .ok _ => none

/-- The write has found nothing to do. -/
def foundNothing : Except IngestErr IngestResult → Bool
  | .error _ => false
  | .ok res => res.noChanges

/-! ### Snapshots keep out of the way -/

namespace Coll

variable (enabled : Bool) (interval : Int) (coll : Coll)

private theorem keep_append (snap : Snapshot) (ev : Event) :
    (coll.keep enabled interval snap).append ev = (coll.append ev).keep enabled interval snap := by
  rw [keep, keep]
  split_ifs <;> rfl

private theorem keep_upsert (snap : Snapshot) (st : CurrentState) :
    (coll.keep enabled interval snap).upsert st = (coll.upsert st).keep enabled interval snap := by
  rw [keep, keep]
  split_ifs <;> rfl

private theorem foldl_keep_append (snaps : List Snapshot) (ev : Event) :
    (snaps.foldl (keep enabled interval) coll).append ev =
      snaps.foldl (keep enabled interval) (coll.append ev) := by
  induction snaps generalizing coll with
  | nil => rfl
  | cons snap snaps ih => rw [foldl_cons, foldl_cons, ih, keep_append]

private theorem foldl_keep_upsert (snaps : List Snapshot) (st : CurrentState) :
    (snaps.foldl (keep enabled interval) coll).upsert st =
      snaps.foldl (keep enabled interval) (coll.upsert st) := by
  induction snaps generalizing coll with
  | nil => rfl
  | cons snap snaps ih => rw [foldl_cons, foldl_cons, ih, keep_upsert]

theorem foldl_keep_frame (snaps : List Snapshot) :
    (snaps.foldl (keep enabled interval) coll).config = coll.config ∧
      (snaps.foldl (keep enabled interval) coll).events = coll.events ∧
      (snaps.foldl (keep enabled interval) coll).current = coll.current := by
  induction snaps generalizing coll with
  | nil => exact ⟨rfl, rfl, rfl⟩
  | cons snap snaps ih =>
    have hkeep : (coll.keep enabled interval snap).config = coll.config ∧
        (coll.keep enabled interval snap).events = coll.events ∧
        (coll.keep enabled interval snap).current = coll.current := by
      rw [keep]
      split_ifs <;> exact ⟨rfl, rfl, rfl⟩
    obtain ⟨h₁, h₂, h₃⟩ := ih (coll.keep enabled interval snap)
    exact ⟨h₁.trans hkeep.1, h₂.trans hkeep.2.1, h₃.trans hkeep.2.2⟩

end Coll

/-! ### Writing out a fold -/

/-- The collection with what a fold has gathered written out. -/
def Fold.written (st : Fold) (enabled : Bool) (coll : Coll) : Coll :=
  st.snaps.foldl (Coll.keep enabled coll.config.snapshotInterval) { coll with
    events := coll.events ++ st.events.map Prod.fst
    current := fun e => (st.finals e).or (coll.current e) }

private theorem Fold.written_push (st : Fold) (enabled : Bool) (coll : Coll) (k : Nat) (ev : Event)
    (newState : Fields) (deleted : Bool) :
    (st.push k ev.entityID ev newState deleted).written enabled coll =
      (st.written enabled coll).commit enabled ev newState deleted := by
  have hconfig : (st.written enabled coll).config = coll.config :=
    (Coll.foldl_keep_frame _ _ _ _).1
  have hbase : ((st.written enabled coll).append ev).upsert
      ⟨ev.entityID, ev.version, ev.tsReceived, deleted, newState⟩ =
        st.snaps.foldl (Coll.keep enabled coll.config.snapshotInterval) { coll with
          events := coll.events ++ (st.events ++ [(ev, k)]).map Prod.fst
          current := fun e => (update st.finals ev.entityID
            (some ⟨ev.entityID, ev.version, ev.tsReceived, deleted, newState⟩) e).or
              (coll.current e) } := by
    rw [Fold.written, Coll.foldl_keep_append, Coll.foldl_keep_upsert]
    congr 1
    simp only [Coll.append, Coll.upsert, Coll.mk.injEq, true_and, and_true]
    constructor
    · simp
    · funext e
      by_cases he : e = ev.entityID
      · subst he
        simp
      · simp [he]
  rw [Coll.commit, hbase, hconfig, Fold.written]
  simp [Fold.push, foldl_append]

private theorem Fold.mem_finalOrder_push {st : Fold}
    (h : ∀ e, e ∈ st.finalOrder ↔ (st.finals e).isSome = true) (k : Nat) (eid : String) (ev : Event)
    (newState : Fields) (deleted : Bool) (e : String) :
    e ∈ (st.push k eid ev newState deleted).finalOrder ↔
      ((st.push k eid ev newState deleted).finals e).isSome = true := by
  by_cases he : e = eid
  · subst he
    simp only [Fold.push, update_self, Option.isSome_some, iff_true]
    split_ifs with hsome
    · exact (h _).mpr hsome
    · exact mem_append_right _ (mem_singleton.mpr rfl)
  · simp only [Fold.push, update_of_ne he, ← h e]
    split_ifs
    · rfl
    · simp [he]

namespace Batch

variable (srv : Server) (c : String)

theorem eval_upsertFinals {finals : String → Option CurrentState}
    (hfinals : ∀ e s, finals e = some s → s.entityID = e) (order : List String) (coll : Coll) :
    (upsertFinals c finals order).eval (serveIn srv) coll = ((), { coll with
      current := fun e => if e ∈ order then (finals e).or (coll.current e)
        else coll.current e }) := by
  induction order generalizing coll with
  | nil => simp [upsertFinals]
  | cons e order ih =>
    rw [upsertFinals]
    cases he : finals e with
    | none =>
      dsimp only
      rw [ih]
      refine Prod.ext rfl ?_
      simp only [Coll.mk.injEq, true_and, and_true]
      funext e'
      by_cases hee : e' = e
      · subst hee
        simp [he]
      · simp [hee]
    | some s =>
      obtain rfl := hfinals e s he
      have hserve : serveIn srv (.upsertCurrent c s) coll = (.ok (), coll.upsert s) := by
        simp [serveIn, serve, Db.upsert, Coll.upsert, Call.collection]
      dsimp only
      rw [Prog.eval_bind, Prog.eval_ask, hserve, ih]
      refine Prod.ext rfl ?_
      simp only [Coll.upsert, Coll.mk.injEq, true_and, and_true]
      funext e'
      by_cases hee : e' = s.entityID
      · subst hee
        simp [he]
      · simp [hee]

theorem eval_buildSnapshots (b : Batch) (cfg : CollectionConfig) (snaps : List Snapshot)
    (coll : Coll) : (b.buildSnapshots cfg c snaps).eval (serveIn srv) coll =
      ((), snaps.foldl (Coll.keep b.ing.snapshots cfg.snapshotInterval) coll) := by
  induction snaps generalizing coll with
  | nil => rfl
  | cons snap snaps ih => rw [buildSnapshots, Prog.eval_bind, eval_buildSnapshot, ih]; rfl

private theorem eval_insertMany_concat (evs : List Event) (ev : Event) (coll : Coll) :
    (insertMany c (evs ++ [ev])).eval (serveIn srv) coll =
      (insertMany c evs >>= fun r => match r with
        | .ok () => insertMany c [ev]
        | .error e => return .error e).eval (serveIn srv) coll := by
  induction evs generalizing coll with
  | nil => rfl
  | cons x evs ih =>
    rw [cons_append, insertMany, insertMany, Prog.eval_bind, Prog.bind_assoc, Prog.eval_bind]
    cases ((Storage.ask (.insertEvent c x)).eval (serveIn srv) coll).1 with
    | ok u => exact ih _
    | error e => rfl

end Batch

/-! ### The simulation -/

/-- The fold of a batch over the items of a collection that had been `coll₀` tracks the collection
`coll` that the same items have left one by one. -/
structure Fold.Tracks (srv : Server) (c : String) (b : Batch) (coll₀ coll : Coll) (st : Fold) :
    Prop where
  running : ∀ e, st.running e = some (coll.current e)
  /-- The last events are the stored ones, if the hooks ask for them. -/
  lastEv : hasPreStore b.ing.pre coll₀.config = true → ∀ e, st.lastEv e = coll.last e
  /-- Written out, the fold leads to the same collection. -/
  written : coll = st.written b.ing.snapshots coll₀
  /-- The states to upsert are those of their entities. -/
  finals : ∀ e s, st.finals e = some s → s.entityID = e
  order : ∀ e, e ∈ st.finalOrder ↔ (st.finals e).isSome = true
  inserts : (Batch.insertMany c (st.events.map Prod.fst)).eval (serveIn srv) coll₀ =
    (.ok (), { coll₀ with events := coll₀.events ++ st.events.map Prod.fst })
  idle : st.events = [] → st.snaps = [] ∧ ∀ e, st.finals e = none

namespace Fold.Tracks

variable {srv : Server} {c : String} {b : Batch} {coll₀ coll : Coll} {st : Fold}
  {it : BatchItem} {k : Nat}

theorem start (srv : Server) (c : String) (b : Batch) (coll : Coll)
    (errs : Nat → Option IngestErr) :
    (Fold.loaded { errs } coll (hasPreStore b.ing.pre coll.config)).Tracks srv c b coll coll where
  running _ := rfl
  lastEv hpre e := by simp [Fold.loaded, hpre]
  written := by simp [Fold.written, Fold.loaded]
  finals e s hs := by simp [Fold.loaded] at hs
  order e := by simp [Fold.loaded]
  inserts := by simp [Fold.loaded, Batch.insertMany]
  idle _ := ⟨rfl, fun _ => rfl⟩

variable (h : st.Tracks srv c b coll₀ coll)

include h

theorem config : coll.config = coll₀.config := by
  rw [h.written]
  exact (Coll.foldl_keep_frame _ _ _ _).1

theorem events : coll.events = coll₀.events ++ st.events.map Prod.fst := by
  rw [h.written]
  exact (Coll.foldl_keep_frame _ _ _ _).2.1

theorem step_eq (hc : it.command.collection = c) :
    b.step coll₀.config c st (it, k) = st.settle k it.command.entityID
      (hasPreStore b.ing.pre coll₀.config) (b.plan it k coll) := by
  have hplan : b.outcome coll₀.config c (st.lastEv it.command.entityID) it k
      (coll.current it.command.entityID) = b.plan it k coll := by
    rw [Batch.plan, hc, h.config, Batch.outcome_eq, Batch.outcome_eq]
    cases hpre : hasPreStore b.ing.pre coll₀.config with
    | false => rfl
    | true => rw [h.lastEv hpre]
  rw [Batch.step, Batch.planItem_eq, h.running]
  exact congrArg _ hplan

theorem inserts_concat {ev : Event} (hv : coll.top ev.entityID < ev.version)
    (hid : coll.Fresh ev.eventID) :
    (Batch.insertMany c (st.events.map Prod.fst ++ [ev])).eval (serveIn srv) coll₀ =
      (.ok (), { coll₀ with events := coll₀.events ++ (st.events.map Prod.fst ++ [ev]) }) := by
  have hins : serveIn srv (.insertEvent c ev)
      { coll₀ with events := coll₀.events ++ st.events.map Prod.fst } =
        (.ok (), { coll₀ with events := coll₀.events ++ st.events.map Prod.fst ++ [ev] }) := by
    have hv' : Coll.top { coll₀ with events := coll₀.events ++ st.events.map Prod.fst }
        ev.entityID < ev.version := by
      rwa [Coll.top, Coll.last, ← h.events]
    have hid' : Coll.Fresh { coll₀ with events := coll₀.events ++ st.events.map Prod.fst }
        ev.eventID := by
      rwa [Coll.Fresh, ← h.events]
    exact Coll.serveIn_insertEvent hv' hid'
  rw [Batch.eval_insertMany_concat, Prog.eval_bind, h.inserts]
  dsimp only
  rw [Batch.insertMany, Prog.eval_bind, Prog.eval_ask, hins, ← append_assoc]
  rfl

/-- One more event: it goes to the end of the insertion and its state replaces what was to be
upserted. -/
theorem push {ev : Event} (newState : Fields) (deleted : Bool)
    (hv : coll.top ev.entityID < ev.version) (hid : coll.Fresh ev.eventID) (k : Nat) :
    (st.settle k ev.entityID (hasPreStore b.ing.pre coll₀.config)
      (.ok (some (ev, newState, deleted)))).Tracks srv c b coll₀
        (coll.commit b.ing.snapshots ev newState deleted) := by
  obtain ⟨-, hevents, hcurrent⟩ := Coll.foldl_keep_frame b.ing.snapshots
    coll.config.snapshotInterval
    ((coll.append ev).upsert ⟨ev.entityID, ev.version, ev.tsReceived, deleted, newState⟩)
    [⟨ev.entityID, ev.version, ev.tsReceived, deleted, newState⟩]
  refine ⟨fun e => ?_, fun hpre e => ?_, ?_, fun e s hs => ?_,
    Fold.mem_finalOrder_push h.order k ev.entityID ev newState deleted, ?_, fun hnil => ?_⟩
  · refine Eq.trans ?_ (congrArg (fun cur => some (cur e)) hcurrent).symm
    by_cases he : e = ev.entityID
    · subst he
      simp [settle, Fold.push, Coll.upsert]
    · simp [settle, Fold.push, Coll.upsert, Coll.append, he, h.running e]
  · have hlast : (coll.commit b.ing.snapshots ev newState deleted).last e =
        (coll.append ev).last e := congrArg (fun evs => (List.filter
          (fun x : Event => x.entityID = e) evs).argmax Event.version) hevents
    rw [hlast]
    by_cases he : e = ev.entityID
    · rw [he, Coll.last_append_self rfl hv]
      simp [settle, hpre]
    · rw [Coll.last_append_of_ne (Ne.symm he), ← h.lastEv hpre]
      simp [settle, hpre, he]
  · rw [h.written]
    exact (Fold.written_push st b.ing.snapshots coll₀ k ev newState deleted).symm
  · by_cases he : e = ev.entityID
    · subst he
      simp only [settle, Fold.push, update_self, Option.some.injEq] at hs
      rw [← hs]
    · simp only [settle, Fold.push, update_of_ne he] at hs
      exact h.finals e s hs
  · have hevs : (st.settle k ev.entityID (hasPreStore b.ing.pre coll₀.config)
        (.ok (some (ev, newState, deleted)))).events.map Prod.fst =
          st.events.map Prod.fst ++ [ev] := by simp [settle, Fold.push]
    rw [hevs]
    exact h.inserts_concat hv hid
  · simp [settle, Fold.push] at hnil

theorem eval_flush : (b.flush coll₀.config c st).eval (serveIn srv) coll₀ = (st.errs, coll) := by
  rw [Batch.eval_flush]
  split_ifs with hnil
  · obtain ⟨hsnaps, hfinals⟩ := h.idle hnil
    rw [h.written, Fold.written, hnil, hsnaps]
    simp [hfinals]
  · have hcur : ∀ e, (if e ∈ st.finalOrder then (st.finals e).or (coll₀.current e)
        else coll₀.current e) = (st.finals e).or (coll₀.current e) := by
      intro e
      split_ifs with he
      · rfl
      · rw [h.order, Option.not_isSome_iff_eq_none] at he
        rw [he, Option.none_or]
    rw [h.inserts]
    dsimp only
    rw [Prog.eval_bind, Batch.eval_upsertFinals srv c h.finals, Batch.eval_buildSnapshots]
    simp only [hcur]
    exact congrArg _ h.written.symm

end Fold.Tracks

/-! ### What stays as it is -/

namespace Batch

variable {b : Batch} {it : BatchItem} {k : Nat} {coll : Coll}

private theorem upToDate_enact (hup : coll.UpToDate it.command.entityID) {e : String}
    (he : coll.UpToDate e) : (b.enact it coll (b.plan it k coll)).2.UpToDate e := by
  cases hplan : b.plan it k coll with
  | error err => exact he
  | ok o =>
    rcases o with _ | ⟨ev, newState, deleted⟩
    · exact he
    · obtain ⟨hent, -, hver⟩ := outcome_event hplan
      have hv : coll.top ev.entityID < ev.version := by
        rw [hent, hver, ← hup]
        exact Nat.lt_succ_self _
      have hframe := Coll.foldl_keep_frame b.ing.snapshots coll.config.snapshotInterval
        ((coll.append ev).upsert ⟨ev.entityID, ev.version, ev.tsReceived, deleted, newState⟩)
        [⟨ev.entityID, ev.version, ev.tsReceived, deleted, newState⟩]
      obtain ⟨-, hevents, hcurrent⟩ := hframe
      have htop : (coll.commit b.ing.snapshots ev newState deleted).top e =
          (coll.append ev).top e := congrArg (fun evs => (((List.filter
            (fun x : Event => x.entityID = e) evs).argmax Event.version).map Event.version).getD 0)
          hevents
      have hcur : (coll.commit b.ing.snapshots ev newState deleted).current e =
          update coll.current ev.entityID
            (some ⟨ev.entityID, ev.version, ev.tsReceived, deleted, newState⟩) e :=
        congrArg (fun cur => cur e) hcurrent
      rw [Coll.UpToDate, enact, hcur, htop]
      by_cases hee : e = ev.entityID
      · rw [hee, Coll.top_append_self rfl hv, update_self, baseState]
        split_ifs <;> rfl
      · rw [Coll.top_append_of_ne (Ne.symm hee), update_of_ne hee]
        exact he

private theorem fresh_enact {id : String} (hid : coll.Fresh id)
    (hne : it.command.eventID = "" ∨ it.command.eventID ≠ id) :
    (b.enact it coll (b.plan it k coll)).2.Fresh id := by
  cases hplan : b.plan it k coll with
  | error err => exact hid
  | ok o =>
    rcases o with _ | ⟨ev, newState, deleted⟩
    · exact hid
    · obtain ⟨-, hevid, -⟩ := outcome_event hplan
      obtain ⟨-, hevents, -⟩ := Coll.foldl_keep_frame b.ing.snapshots coll.config.snapshotInterval
        ((coll.append ev).upsert ⟨ev.entityID, ev.version, ev.tsReceived, deleted, newState⟩)
        [⟨ev.entityID, ev.version, ev.tsReceived, deleted, newState⟩]
      have hmem : (coll.commit b.ing.snapshots ev newState deleted).events =
          coll.events ++ [ev] := hevents
      rw [Coll.Fresh, enact, hmem]
      refine or_iff_not_imp_left.mpr fun hne0 x hx => ?_
      rcases mem_append.mp hx with hx | hx
      · exact hid.resolve_left hne0 x hx
      · rw [mem_singleton.mp hx, hevid]
        rcases hne with hempty | hne
        · rw [hempty]
          exact Ne.symm hne0
        · exact hne

end Batch

/-! ### Reports -/

/-- The fold reports of the item at a position what its write has come to: the same failure, and an
event if and only if the write has stored one. -/
def Fold.Reports (st : Fold) (k : Nat) (res : Except IngestErr IngestResult) : Prop :=
  st.errs k = failure res ∧
    (k ∈ st.events.map Prod.snd ↔ failure res = none ∧ foundNothing res = false)

namespace Fold.Reports

variable {st : Fold} {k : Nat} {res : Except IngestErr IngestResult}

theorem settle_of_ne {i : Nat} (hik : i ≠ k) (eid : String) (chained : Bool)
    (o : Except IngestErr (Option (Event × Fields × Bool))) :
    (st.settle i eid chained o).errs k = st.errs k ∧
      (k ∈ (st.settle i eid chained o).events.map Prod.snd ↔ k ∈ st.events.map Prod.snd) := by
  rcases o with e | (_ | ⟨ev, newState, deleted⟩)
  · exact ⟨update_of_ne hik.symm _ _, Iff.rfl⟩
  · exact ⟨rfl, Iff.rfl⟩
  · exact ⟨rfl, by simp [settle, Fold.push, hik.symm]⟩

theorem foldl (h : st.Reports k res) (b : Batch) (cfg : CollectionConfig) (c : String)
    {items : List (BatchItem × Nat)} (hk : k ∉ items.map Prod.snd) :
    (items.foldl (b.step cfg c) st).Reports k res := by
  induction items generalizing st with
  | nil => exact h
  | cons p items ih =>
    rw [map_cons, mem_cons, not_or] at hk
    refine ih ?_ hk.2
    rw [Batch.step, Batch.planItem_eq]
    obtain ⟨herr, hmem⟩ := settle_of_ne (Ne.symm hk.1) _ _ _
    exact ⟨herr.trans h.1, hmem.trans h.2⟩

/-- Positions are distinct, so the turn of an item leaves no trace of the later ones. -/
theorem silent_tail {items : List (BatchItem × Nat)} {i : Nat} (hi : i ∉ items.map Prod.snd)
    (h : ∀ p ∈ items, st.errs p.2 = none ∧ p.2 ∉ st.events.map Prod.snd) (eid : String)
    (chained : Bool) (o : Except IngestErr (Option (Event × Fields × Bool))) :
    ∀ p ∈ items, (st.settle i eid chained o).errs p.2 = none ∧
      p.2 ∉ (st.settle i eid chained o).events.map Prod.snd := by
  intro p hp
  have hne : i ≠ p.2 := by
    rintro rfl
    exact hi (mem_map_of_mem hp)
  obtain ⟨herr, hmem⟩ := settle_of_ne hne eid chained o
  exact ⟨herr.trans (h p hp).1, fun hev => (h p hp).2 (hmem.mp hev)⟩

theorem settle_self (herr : st.errs k = none) (hev : k ∉ st.events.map Prod.snd) (b : Batch)
    (it : BatchItem) (coll : Coll) (eid : String) (chained : Bool)
    (o : Except IngestErr (Option (Event × Fields × Bool))) :
    (st.settle k eid chained o).Reports k (b.enact it coll o).1 := by
  rcases o with e | (_ | ⟨ev, newState, deleted⟩)
  · exact ⟨update_self .., iff_of_false hev (by simp [Batch.enact, failure])⟩
  · exact ⟨herr, iff_of_false hev (by simp [Batch.enact, foundNothing])⟩
  · refine ⟨herr, iff_of_true ?_ ⟨rfl, rfl⟩⟩
    simp [settle, Fold.push]

end Fold.Reports

namespace Fold.Tracks

variable {srv : Server} {c : String} {b : Batch} {coll₀ coll : Coll} {st : Fold}

/-- **The simulation** over the items of a collection. -/
theorem run (h : st.Tracks srv c b coll₀ coll) {items : List (BatchItem × Nat)}
    (hcoll : ∀ p ∈ items, p.1.command.collection = c)
    (hlock : ∀ p ∈ items, p.1.command.expectedVersion = none)
    (hup : ∀ p ∈ items, coll.UpToDate p.1.command.entityID)
    (hid : ∀ p ∈ items, coll.Fresh p.1.command.eventID)
    (hdistinct : items.Pairwise fun p q =>
      p.1.command.eventID = "" ∨ p.1.command.eventID ≠ q.1.command.eventID)
    (hpos : (items.map Prod.snd).Nodup)
    (hnew : ∀ p ∈ items, st.errs p.2 = none ∧ p.2 ∉ st.events.map Prod.snd) :
    let r := (b.oneByOneFrom items).eval (serveIn srv) coll
    let st' := items.foldl (b.step coll₀.config c) st
    st'.Tracks srv c b coll₀ r.2 ∧ r.1.length = items.length ∧
      ∀ q ∈ items.zip r.1, st'.Reports q.1.2 q.2 := by
  induction items generalizing st coll with
  | nil => exact ⟨h, rfl, fun q hq => absurd hq not_mem_nil⟩
  | cons p items ih =>
    obtain ⟨it, k⟩ := p
    rw [forall_mem_cons] at hcoll hlock hup hid hnew
    obtain ⟨hhead, hdistinct⟩ := pairwise_cons.mp hdistinct
    obtain ⟨hk, hpos⟩ := nodup_cons.mp hpos
    -- the single write and the item of the batch plan from the same state
    have hwrite : (b.write it k).prog.eval (serveIn srv) coll =
        b.enact it coll (b.plan it k coll) := Batch.eval_write srv hlock.1 hup.1 hid.1
    have hstep : b.step coll₀.config c st (it, k) = st.settle k it.command.entityID
        (hasPreStore b.ing.pre coll₀.config) (b.plan it k coll) := h.step_eq hcoll.1
    have htracks : (b.step coll₀.config c st (it, k)).Tracks srv c b coll₀
        (b.enact it coll (b.plan it k coll)).2 := by
      rw [hstep]
      cases hplan : b.plan it k coll with
      | error e => exact { h with }
      | ok o =>
        rcases o with _ | ⟨ev, newState, deleted⟩
        · exact h
        · obtain ⟨hent, hevid, hver⟩ := Batch.outcome_event hplan
          rw [← hent]
          refine h.push newState deleted ?_ (hevid ▸ hid.1) k
          -- the next version is planned from an up-to-date current state
          rw [hent, hver, ← hup.1]
          exact Nat.lt_succ_self _
    have hreport : (b.step coll₀.config c st (it, k)).Reports k
        (b.enact it coll (b.plan it k coll)).1 := by
      rw [hstep]
      exact .settle_self hnew.1.1 hnew.1.2 ..
    have hnew' : ∀ p ∈ items, (b.step coll₀.config c st (it, k)).errs p.2 = none ∧
        p.2 ∉ (b.step coll₀.config c st (it, k)).events.map Prod.snd := by
      rw [hstep]
      exact Reports.silent_tail hk hnew.2 _ _ _
    obtain ⟨ih₁, ih₂, ih₃⟩ := ih htracks hcoll.2 hlock.2
      (fun p hp => Batch.upToDate_enact hup.1 (hup.2 p hp))
      (fun p hp => Batch.fresh_enact (hid.2 p hp) (hhead p hp)) hdistinct hpos hnew'
    rw [Batch.oneByOneFrom, Prog.eval_bind, hwrite]
    simp only [Prog.eval_bind, Prog.eval_pure, foldl_cons]
    refine ⟨ih₁, by rw [length_cons, length_cons, ih₂], ?_⟩
    rw [zip_cons_cons]
    exact forall_mem_cons.mpr ⟨hreport.foldl b coll₀.config c hk, ih₃⟩

end Fold.Tracks

/-! ### All collections -/

namespace Batch

variable (srv : Server) (b : Batch)

private theorem eval_write_local (it : BatchItem) (k : Nat) (db : Db) :
    (b.write it k).prog.eval (serve srv) db =
      (((b.write it k).prog.eval (serveIn srv) (db it.command.collection)).1,
        update db it.command.collection
          ((b.write it k).prog.eval (serveIn srv) (db it.command.collection)).2) :=
  Prog.eval_local (serve_eq_serveIn srv) (b.write it k).calls_prog db

private theorem eval_oneByOneFrom (items : List (BatchItem × Nat)) (db : Db) (c : String) :
    let r := (b.oneByOneFrom items).eval (serve srv) db
    let own := items.filter fun p => p.1.command.collection = c
    let r' := (b.oneByOneFrom own).eval (serveIn srv) (db c)
    r.1.length = items.length ∧ r.2 c = r'.2 ∧
      (items.zip r.1).filter (fun q => q.1.1.command.collection = c) = own.zip r'.1 := by
  induction items generalizing db with
  | nil => exact ⟨rfl, rfl, rfl⟩
  | cons p items ih =>
    obtain ⟨it, k⟩ := p
    obtain ⟨hlen, hstore, hzip⟩ := ih ((b.write it k).prog.eval (serve srv) db).2
    simp only [oneByOneFrom, Prog.eval_bind, Prog.eval_pure, length_cons, zip_cons_cons,
      hlen, true_and]
    rw [eval_write_local] at hstore hzip ⊢
    dsimp only at hstore hzip ⊢
    by_cases hc : it.command.collection = c
    · subst hc
      rw [update_self] at hstore hzip
      simp only [filter_cons, decide_true, if_true, oneByOneFrom, Prog.eval_bind,
        Prog.eval_pure, zip_cons_cons]
      exact ⟨hstore, congrArg _ hzip⟩
    · rw [update_of_ne (Ne.symm hc)] at hstore hzip
      simp only [filter_cons, hc, decide_false, Bool.false_eq_true, if_false]
      exact ⟨hstore, hzip⟩

/-- The positions of the collection's items that have come to an event. -/
def eventful (c : String) (coll : Coll) : List Nat :=
  (b.folded c coll (fun _ => none) (b.itemsOf c)).events.map Prod.snd

variable {b} in
/-- **One collection**: what the batch makes of it is what its items make of it one by one. -/
theorem alone_eq_oneByOne (c : String) (coll : Coll)
    (hlock : ∀ it ∈ b.items, it.command.expectedVersion = none)
    (hup : ∀ it ∈ b.items, it.command.collection = c → coll.UpToDate it.command.entityID)
    (hid : ∀ it ∈ b.items, it.command.collection = c → coll.Fresh it.command.eventID)
    (hdistinct : b.items.Pairwise fun it it' =>
      it.command.collection = it'.command.collection →
        it.command.eventID = "" ∨ it.command.eventID ≠ it'.command.eventID) :
    let r := (b.oneByOneFrom (b.itemsOf c)).eval (serveIn srv) coll
    (b.alone srv c coll).2 = r.2 ∧
      ∀ q ∈ (b.itemsOf c).zip r.1, (b.alone srv c coll).1 q.1.2 = failure q.2 ∧
        (q.1.2 ∈ b.eventful c coll ↔ failure q.2 = none ∧ foundNothing q.2 = false) := by
  have hitem : ∀ p ∈ b.itemsOf c, p.1 ∈ b.items ∧ p.1.command.collection = c := by
    intro p hp
    obtain ⟨hget, hc⟩ := mem_itemsOf.mp hp
    exact ⟨mem_of_getElem? hget, hc⟩
  have hpairs : (b.itemsOf c).Pairwise fun p q =>
      p.1.command.eventID = "" ∨ p.1.command.eventID ≠ q.1.command.eventID := by
    have hzip : b.items.zipIdx.Pairwise fun p q =>
        p.1.command.collection = q.1.command.collection →
          p.1.command.eventID = "" ∨ p.1.command.eventID ≠ q.1.command.eventID := by
      rw [← pairwise_map (f := Prod.fst) (R := fun it it' : BatchItem =>
        it.command.collection = it'.command.collection →
          it.command.eventID = "" ∨ it.command.eventID ≠ it'.command.eventID)]
      rwa [zipIdx_map_fst]
    refine (hzip.filter _).imp_of_mem fun {p q} hp hq h => h ?_
    rw [(hitem p hp).2, (hitem q hq).2]
  obtain ⟨htracks, -, hreports⟩ := (Fold.Tracks.start srv c b coll fun _ => none).run
    (fun p hp => (hitem p hp).2) (fun p hp => hlock _ (hitem p hp).1)
    (fun p hp => hup _ (hitem p hp).1 (hitem p hp).2)
    (fun p hp => hid _ (hitem p hp).1 (hitem p hp).2) hpairs (b.positions_nodup c)
    (fun p _ => ⟨rfl, not_mem_nil⟩)
  have halone : b.alone srv c coll = ((b.folded c coll (fun _ => none) (b.itemsOf c)).errs,
      ((b.oneByOneFrom (b.itemsOf c)).eval (serveIn srv) coll).2) := by
    rw [alone, eval_batchCollection]
    exact htracks.eval_flush
  rw [halone]
  exact ⟨rfl, hreports⟩

end Batch

/-- **A batch is its items one by one**, over a store that hands back what was stored: where the
current states are up to date, no item is locked and the event ids are new and distinct, a batch
reports the failures that its items have as single writes, finds nothing to do for the same items,
and leaves the same events, current states and snapshots. -/
theorem ingestBatch_eq_oneByOne_serve (srv : Server) (b : Batch) (db : Db)
    (hcur : ∀ it ∈ b.items, db.curVersion it.command.collection it.command.entityID =
      db.top it.command.collection it.command.entityID)
    (hlock : ∀ it ∈ b.items, it.command.expectedVersion = none)
    (hfresh : ∀ it ∈ b.items, it.command.eventID = "" ∨
      ∀ x ∈ (db it.command.collection).events, x.eventID ≠ it.command.eventID)
    (hdistinct : b.items.Pairwise fun it it' => it.command.collection = it'.command.collection →
      it.command.eventID = "" ∨ it.command.eventID ≠ it'.command.eventID) :
    let batch := b.ingestBatch.eval (serve srv) db
    let single := b.oneByOne.eval (serve srv) db
    batch.2 = single.2 ∧ batch.1 = single.1.map failure ∧
      ∀ k it res, b.items[k]? = some it → single.1[k]? = some res →
        (foundNothing res = true ↔ batch.1[k]? = some none ∧
          k ∉ b.eventful it.command.collection (db it.command.collection)) := by
  intro batch single
  have hcoll := fun c => Batch.alone_eq_oneByOne srv c (db c) hlock
    (fun it hit hc => hc ▸ hcur it hit) (fun it hit hc => hc ▸ hfresh it hit) hdistinct
  have hlocal := b.eval_oneByOneFrom srv b.items.zipIdx db
  obtain ⟨hstore, hlen, hvalue⟩ := b.eval_ingestBatch srv db
  have hlen : batch.1.length = b.items.length := hlen
  have hlen' : single.1.length = b.items.length := by
    rw [← length_zipIdx (l := b.items) (i := 0)]
    exact (hlocal "").1
  have hitem : ∀ k it res, b.items[k]? = some it → single.1[k]? = some res →
      batch.1[k]? = some (failure res) ∧
        (k ∈ b.eventful it.command.collection (db it.command.collection) ↔
          failure res = none ∧ foundNothing res = false) := by
    intro k it res hit hres
    have hmem : ((it, k), res) ∈ b.items.zipIdx.zip single.1 := by
      refine mem_iff_getElem?.mpr ⟨k, ?_⟩
      rw [getElem?_zip_eq_some]
      exact ⟨by simp [getElem?_zipIdx, hit], hres⟩
    -- among the items of its collection it has the same result
    have hown : ((it, k), res) ∈ (b.itemsOf it.command.collection).zip _ :=
      (hlocal it.command.collection).2.2 ▸ mem_filter.mpr ⟨hmem, by simp⟩
    obtain ⟨herr, hev⟩ := (hcoll it.command.collection).2 _ hown
    exact ⟨(hvalue k it hit).trans (congrArg some herr), hev⟩
  refine ⟨?_, ?_, fun k it res hit hres => ?_⟩
  · refine hstore.trans (funext fun c => ?_)
    exact (hcoll c).1.trans (hlocal c).2.1.symm
  · refine ext_getElem? fun k => ?_
    rw [getElem?_map]
    cases hit : b.items[k]? with
    | none =>
      rw [List.getElem?_eq_none_iff] at hit
      rw [getElem?_eq_none (by omega), getElem?_eq_none (by omega)]
      rfl
    | some it =>
      have hk : k < single.1.length := hlen' ▸ (List.getElem?_eq_some_iff.mp hit).1
      have hres : single.1[k]? = some single.1[k] := getElem?_eq_getElem hk
      rw [(hitem k it _ hit hres).1, hres]
      rfl
  · obtain ⟨herr, hev⟩ := hitem k it res hit hres
    rw [herr, hev]
    rcases res with e | res
    · simp [failure, foundNothing]
    · simp [failure, foundNothing]

end Letopis
