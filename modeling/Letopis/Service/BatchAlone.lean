import Letopis.Interleaving.Eval
import Letopis.Service.Batch

/-!
# A batch on its own

What a batch comes to when nobody else touches the store while it runs and no call fails. Each
of its collections is handled on its own part of the store, so that the order in which they are
handled makes no difference (`Batch.eval_ingestBatch`). Within a collection the loads can be
thought of as done in advance: the fold is then a fold of a pure function over the items
(`Batch.folded`), and the store is written from where it ends (`Batch.eval_batchCollection`).
-/

namespace Letopis

open Interleaving List Function

/-! ### Calls for one collection -/

/-- The collection that a call is about. -/
def Call.collection : Call → String
  | .ensureCollection c | .getCurrent c _ | .upsertCurrent c _ | .lastVersion c _
  | .insertEvent c _ | .lastEvent c _ | .listEvents c _ | .saveSnapshot c _
  | .nearestSnapshot c _ _ => c

/-- Answer a call from its own collection. -/
def serveIn (srv : Server) (call : Call) (coll : Coll) : Except StoreErr call.Value × Coll :=
  let r := serve srv call fun _ => coll
  (r.1, r.2 call.collection)

theorem serve_eq_serveIn (srv : Server) (call : Call) (db : Db) :
    serve srv call db = ((serveIn srv call (db call.collection)).1,
      update db call.collection (serveIn srv call (db call.collection)).2) := by
  cases call with
  | insertEvent c ev =>
    have hv : Db.VersionFree (fun _ => db c) c ev ↔ db.VersionFree c ev := Iff.rfl
    have hi : Db.EventIDFree (fun _ => db c) c ev ↔ db.EventIDFree c ev := Iff.rfl
    simp only [serveIn, serve, Call.collection, hv, hi]
    split_ifs <;> simp [Db.append]
  | upsertCurrent c st => simp [serveIn, serve, Call.collection, Db.upsert]
  | saveSnapshot c snap => simp [serveIn, serve, Call.collection, Db.save]
  | _ => exact Prod.ext rfl (update_eq_self _ _).symm

/-- The most recent event of an entity. -/
def Coll.last (coll : Coll) (e : String) : Option Event :=
  (coll.events.filter fun ev => ev.entityID = e).argmax Event.version

theorem eval_load (srv : Server) (c e : String) (coll : Coll) :
    (load c e).eval (serveIn srv) coll = (.ok (coll.current e), coll) := by
  have hserve : serveIn srv (.getCurrent c e) coll = (orNotFound (coll.current e), coll) := rfl
  rw [load, Prog.eval_bind, Prog.eval_ask, hserve]
  cases coll.current e <;> rfl

theorem eval_lastEvent (srv : Server) (c e : String) (coll : Coll) :
    (lastEvent c e).eval (serveIn srv) coll = (.ok (coll.last e), coll) := by
  have hserve : serveIn srv (.lastEvent c e) coll = (orNotFound (coll.last e), coll) := rfl
  rw [lastEvent, Prog.eval_bind, Prog.eval_ask, hserve]
  cases coll.last e <;> rfl

/-! ### The fold -/

/-- What becomes of a planned item: its failure, the new state of its entity, or nothing. -/
def Fold.settle (st : Fold) (k : Nat) (eid : String) (chained : Bool) :
    Except IngestErr (Option (Event × Fields × Bool)) → Fold
  | .error e => st.fail k e
  | .ok none => st
  | .ok (some (ev, newState, deleted)) =>
    { st.push k eid ev newState deleted with
      lastEv := if chained then update st.lastEv eid (some ev) else st.lastEv }

namespace Batch

variable (b : Batch) (cfg : CollectionConfig) (c : String)

/-- What an item is planned to do, given the last event and the current state of its entity. -/
def outcome (last : Option Event) (it : BatchItem) (k : Nat) (cur : Option CurrentState) :
    Except IngestErr (Option (Event × Fields × Bool)) :=
  match planEvent (b.now k).received cfg it.kind it.command cur with
  | .error e => .error e
  | .ok .noChange => .ok none
  | .ok (.write ev newState deleted) =>
    let ev := { ev with version := nextVersion cur, tsStored := (b.now k).stored }
    if hasPreStore b.ing.pre cfg then
      match runPreStore cfg c ⟨last, cur⟩ b.ing.pre ev with
      | .error e => .error e
      | .ok ev => .ok (some (ev, newState, deleted))
    else .ok (some (ev, newState, deleted))

theorem planItem_eq (st : Fold) (it : BatchItem) (k : Nat) (cur : Option CurrentState) :
    b.planItem cfg c st it k cur = st.settle k it.command.entityID (hasPreStore b.ing.pre cfg)
      (b.outcome cfg c (st.lastEv it.command.entityID) it k cur) := by
  rw [planItem, outcome]
  rcases planEvent (b.now k).received cfg it.kind it.command cur
    with e | (_ | ⟨ev, newState, deleted⟩)
  · rfl
  · rfl
  · dsimp only
    split_ifs with hpre
    · cases runPreStore cfg c _ b.ing.pre _ with
      | error e => rfl
      | ok ev => simp [Fold.settle, hpre]
    · simp [Fold.settle, Fold.push, hpre]

/-- Plan an item in a fold that has everything loaded. -/
def step (st : Fold) (p : BatchItem × Nat) : Fold :=
  b.planItem cfg c st p.1 p.2 (st.running p.1.command.entityID).join

end Batch

/-- A fold with the entities loaded that it has not asked for yet. -/
def Fold.loaded (st : Fold) (coll : Coll) (chained : Bool) : Fold :=
  { st with
    running := fun e => some ((st.running e).getD (coll.current e))
    lastEv := fun e => if chained ∧ st.running e = none then coll.last e else st.lastEv e }

private theorem Fold.loaded_load {st : Fold} {coll : Coll} {chained : Bool} {eid : String}
    (h : st.running eid = none) {lastEv : String → Option Event}
    (hlast : lastEv = if chained then update st.lastEv eid (coll.last eid)
      else st.lastEv) :
    Fold.loaded { st with
      running := update st.running eid (some (coll.current eid)), lastEv } coll chained =
        st.loaded coll chained := by
  subst hlast
  simp only [loaded, Fold.mk.injEq, and_true]
  constructor
  · funext e
    by_cases he : e = eid
    · subst he
      simp [h]
    · simp [update_of_ne he]
  · funext e
    cases chained with
    | false => simp
    | true =>
      by_cases he : e = eid
      · subst he
        simp [h]
      · simp [update_of_ne he]

private theorem Fold.loaded_settle (st : Fold) (coll : Coll) (chained : Bool) (k : Nat)
    (eid : String) (o : Except IngestErr (Option (Event × Fields × Bool))) :
    (st.settle k eid chained o).loaded coll chained =
      (st.loaded coll chained).settle k eid chained o := by
  rcases o with e | (_ | ⟨ev, newState, deleted⟩)
  · rfl
  · rfl
  · simp only [settle, loaded, push, Fold.mk.injEq, true_and, and_true]
    refine ⟨?_, ?_, rfl⟩
    · funext e
      by_cases he : e = eid
      · subst he
        simp
      · simp [update_of_ne he]
    · funext e
      cases chained with
      | false => simp
      | true =>
        by_cases he : e = eid
        · subst he
          simp
        · simp [update_of_ne he]

namespace Batch

variable (srv : Server) (b : Batch) (cfg : CollectionConfig) (c : String) (coll : Coll)

private theorem eval_foldItem (st : Fold) (it : BatchItem) (k : Nat) :
    ∃ st', (b.foldItem cfg c st it k).eval (serveIn srv) coll = (st', coll) ∧
      st'.loaded coll (hasPreStore b.ing.pre cfg) =
        b.step cfg c (st.loaded coll (hasPreStore b.ing.pre cfg)) (it, k) := by
  have hplan : ∀ st cur, st.running it.command.entityID = some cur →
      (b.planItem cfg c st it k cur).loaded coll (hasPreStore b.ing.pre cfg) =
        b.step cfg c (st.loaded coll (hasPreStore b.ing.pre cfg)) (it, k) := by
    intro st cur hcur
    rw [step, planItem_eq, planItem_eq, Fold.loaded_settle]
    simp [Fold.loaded, hcur]
  rw [foldItem]
  cases hcur : st.running it.command.entityID with
  | some cur => exact ⟨_, rfl, hplan st cur hcur⟩
  | none =>
    simp only [Prog.eval_bind, eval_load]
    split_ifs with hpre
    · simp only [Prog.eval_bind, eval_lastEvent]
      refine ⟨_, rfl, ?_⟩
      rw [hplan _ _ (update_self ..), Fold.loaded_load hcur (by rw [if_pos hpre])]
    · refine ⟨_, rfl, ?_⟩
      rw [hplan _ _ (update_self ..), Fold.loaded_load hcur (by rw [if_neg hpre])]

private theorem eval_foldItems (st : Fold) (items : List (BatchItem × Nat)) :
    ∃ st', (b.foldItems cfg c items st).eval (serveIn srv) coll = (st', coll) ∧
      st'.loaded coll (hasPreStore b.ing.pre cfg) =
        items.foldl (b.step cfg c) (st.loaded coll (hasPreStore b.ing.pre cfg)) := by
  induction items generalizing st with
  | nil => exact ⟨st, rfl, rfl⟩
  | cons p items ih =>
    obtain ⟨st₁, heval, hst₁⟩ := eval_foldItem srv b cfg c coll st p.1 p.2
    obtain ⟨st', heval', hst'⟩ := ih st₁
    refine ⟨st', ?_, ?_⟩
    · rw [foldItems, Prog.eval_bind, heval]
      exact heval'
    · rw [hst', hst₁, foldl_cons]

/-- The fold over items, with everything loaded in advance. -/
def folded (errs : Nat → Option IngestErr)
    (items : List (BatchItem × Nat)) : Fold :=
  items.foldl (b.step coll.config c)
    (Fold.loaded { errs } coll (hasPreStore b.ing.pre coll.config))

/-- **A collection on its own.** The store is written from where the fold ends. -/
theorem eval_batchCollection (errs : Nat → Option IngestErr) :
    (b.batchCollection c errs).eval (serveIn srv) coll =
      (b.flush coll.config c (b.folded c coll errs (b.itemsOf c))).eval (serveIn srv) coll := by
  obtain ⟨st, heval, hst⟩ := eval_foldItems srv b coll.config c coll { errs } (b.itemsOf c)
  have hserve : serveIn srv (.ensureCollection c) coll = (.ok coll.config, coll) := rfl
  rw [batchCollection, Prog.eval_bind, Prog.eval_ask, hserve]
  simp only [Prog.eval_bind, heval]
  rw [folded, ← hst]
  rfl

theorem eval_flush (st : Fold) : (b.flush cfg c st).eval (serveIn srv) coll =
    if st.events = [] then (st.errs, coll)
    else
      let r := (insertMany c (st.events.map Prod.fst)).eval (serveIn srv) coll
      match r.1 with
      | .error e => (failAll st.errs (st.events.map Prod.snd)
          (.appendBatchFailed c st.events.length e), r.2)
      | .ok () => (st.errs, ((upsertFinals c st.finals st.finalOrder >>= fun _ =>
          b.buildSnapshots cfg c st.snaps).eval (serveIn srv) r.2).2) := by
  rw [flush]
  split_ifs
  · rfl
  · dsimp only
    rw [Prog.eval_bind]
    cases ((insertMany c (st.events.map Prod.fst)).eval (serveIn srv) coll).1 with
    | error e => rfl
    | ok u => simp only [Prog.eval_bind, Prog.eval_pure]

end Batch

/-! ### Positions -/

/-- Two folds that do the same for items under different positions. Their failures agree on the
positions in `D`. -/
structure Fold.Renames (σ : Nat → Nat) (D : Nat → Prop) (st st' : Fold) : Prop where
  running : st.running = st'.running
  lastEv : st.lastEv = st'.lastEv
  finals : st.finals = st'.finals
  finalOrder : st.finalOrder = st'.finalOrder
  snaps : st.snaps = st'.snaps
  events : st.events = st'.events.map fun p => (p.1, σ p.2)
  errs : ∀ i, D i → st.errs (σ i) = st'.errs i

namespace Fold.Renames

variable {σ : Nat → Nat} {D : Nat → Prop} {st st' : Fold}

theorem settle (h : Renames σ D st st') (hσ : Injective σ) (k : Nat) (eid : String)
    (chained : Bool) (o : Except IngestErr (Option (Event × Fields × Bool))) :
    Renames σ D (st.settle (σ k) eid chained o) (st'.settle k eid chained o) := by
  rcases o with e | (_ | ⟨ev, newState, deleted⟩)
  · refine { h with errs := fun i hi => ?_ }
    by_cases hik : i = k
    · subst hik
      simp [Fold.settle, Fold.fail]
    · simp [Fold.settle, Fold.fail, update_of_ne hik,
        update_of_ne (hσ.ne hik), h.errs i hi]
  · exact h
  · refine ⟨?_, ?_, ?_, ?_, ?_, ?_, h.errs⟩ <;>
      simp [Fold.settle, Fold.push, h.running, h.lastEv, h.finals, h.finalOrder, h.snaps, h.events]

theorem foldl (h : Renames σ D st st') (hσ : Injective σ) {b b' : Batch}
    (hing : b'.ing = b.ing) (hnow : ∀ i, b'.now i = b.now (σ i)) (cfg : CollectionConfig)
    (c : String) (items : List (BatchItem × Nat)) :
    Renames σ D ((items.map fun p => (p.1, σ p.2)).foldl (b.step cfg c) st)
      (items.foldl (b'.step cfg c) st') := by
  induction items generalizing st st' with
  | nil => exact h
  | cons p items ih =>
    refine ih ?_
    have ho : ∀ last cur, b'.outcome cfg c last p.1 p.2 cur =
        b.outcome cfg c last p.1 (σ p.2) cur := by
      intro last cur
      rw [Batch.outcome, Batch.outcome, hing, hnow]
    rw [Batch.step, Batch.step, Batch.planItem_eq, Batch.planItem_eq, hing, ho, h.running, h.lastEv]
    exact h.settle hσ ..

theorem eval_flush (h : Renames σ D st st') (hσ : Injective σ) {b b' : Batch}
    (hing : b'.ing = b.ing) (srv : Server) (cfg : CollectionConfig) (c : String) (coll : Coll) :
    ((b.flush cfg c st).eval (serveIn srv) coll).2 =
        ((b'.flush cfg c st').eval (serveIn srv) coll).2 ∧
      ∀ i, D i → ((b.flush cfg c st).eval (serveIn srv) coll).1 (σ i) =
        ((b'.flush cfg c st').eval (serveIn srv) coll).1 i := by
  have hsnaps : ∀ snaps, b'.buildSnapshots cfg c snaps = b.buildSnapshots cfg c snaps := by
    intro snaps
    induction snaps with
    | nil => rfl
    | cons snap snaps ih => rw [Batch.buildSnapshots, Batch.buildSnapshots, ih, hing]
  have hfst : st.events.map Prod.fst = st'.events.map Prod.fst := by
    rw [h.events, map_map]
    rfl
  have hsnd : st.events.map Prod.snd = (st'.events.map Prod.snd).map σ := by
    rw [h.events, map_map, map_map]
    rfl
  have hlen : st.events.length = st'.events.length := by rw [h.events, length_map]
  have hnil : st.events = [] ↔ st'.events = [] := by rw [h.events, map_eq_nil_iff]
  rw [Batch.eval_flush, Batch.eval_flush, hfst, hsnd, hlen, h.finals, h.finalOrder, h.snaps]
  simp only [hnil, hsnaps]
  split_ifs
  · exact ⟨rfl, h.errs⟩
  · cases ((Batch.insertMany c (st'.events.map Prod.fst)).eval (serveIn srv) coll).1 with
    | error e =>
      refine ⟨rfl, fun i hi => ?_⟩
      simp only [Batch.failAll, mem_map_of_injective hσ, h.errs i hi]
    | ok u => exact ⟨rfl, h.errs⟩

end Fold.Renames

/-- A fold over items at the positions `ks` has touched nothing else. -/
structure Fold.Within (ks : List Nat) (errs : Nat → Option IngestErr) (st : Fold) : Prop where
  events : ∀ p ∈ st.events, p.2 ∈ ks
  errs : ∀ i, i ∉ ks → st.errs i = errs i

namespace Fold.Within

variable {ks : List Nat} {errs : Nat → Option IngestErr} {st : Fold}

theorem settle (h : Within ks errs st) {k : Nat} (hk : k ∈ ks) (eid : String) (chained : Bool)
    (o : Except IngestErr (Option (Event × Fields × Bool))) :
    Within ks errs (st.settle k eid chained o) := by
  rcases o with e | (_ | ⟨ev, newState, deleted⟩)
  · refine ⟨h.events, fun i hi => ?_⟩
    have hik : i ≠ k := fun hik => hi (hik ▸ hk)
    exact (update_of_ne hik _ _).trans (h.errs i hi)
  · exact h
  · refine ⟨fun p hp => ?_, h.errs⟩
    rcases mem_append.mp hp with hp | hp
    · exact h.events p hp
    · rw [mem_singleton.mp hp]
      exact hk

theorem foldl (h : Within ks errs st) (b : Batch) (cfg : CollectionConfig) (c : String)
    (items : List (BatchItem × Nat)) (hitems : ∀ p ∈ items, p.2 ∈ ks) :
    Within ks errs (items.foldl (b.step cfg c) st) := by
  induction items generalizing st with
  | nil => exact h
  | cons p items ih =>
    refine ih ?_ fun q hq => hitems q (mem_cons_of_mem _ hq)
    rw [Batch.step, Batch.planItem_eq]
    exact h.settle (hitems p mem_cons_self) ..

theorem eval_flush (h : Within ks errs st) (srv : Server) (b : Batch) (cfg : CollectionConfig)
    (c : String) (coll : Coll) {i : Nat} (hi : i ∉ ks) :
    ((b.flush cfg c st).eval (serveIn srv) coll).1 i = errs i := by
  have hev : i ∉ st.events.map Prod.snd := by
    rintro hmem
    obtain ⟨p, hp, rfl⟩ := mem_map.mp hmem
    exact hi (h.events p hp)
  rw [Batch.eval_flush]
  split_ifs
  · exact h.errs i hi
  · dsimp only
    split
    · exact (if_neg hev).trans (h.errs i hi)
    · exact h.errs i hi

end Fold.Within

/-! ### All collections -/

theorem nodup_eraseDups (l : List String) : l.eraseDups.Nodup := by
  match l with
  | [] => exact nodup_nil
  | a :: l =>
    rw [eraseDups_cons, nodup_cons, mem_eraseDups]
    exact ⟨by simp, nodup_eraseDups _⟩
termination_by l.length
decreasing_by
  exact Nat.lt_succ_of_le (length_filter_le _ _)

theorem flatMap_filter_perm {α κ : Type} [DecidableEq κ] (f : α → κ) {keys : List κ} {l : List α}
    (hkeys : keys.Nodup) (hl : ∀ a ∈ l, f a ∈ keys) :
    (keys.flatMap fun k => l.filter fun a => f a = k).Perm l := by
  induction keys generalizing l with
  | nil =>
    rw [eq_nil_iff_forall_not_mem.mpr fun a ha => absurd (hl a ha) not_mem_nil]
    exact .nil
  | cons k keys ih =>
    obtain ⟨hk, hkeys⟩ := nodup_cons.mp hkeys
    have hrest := @ih (l.filter fun a => !decide (f a = k)) hkeys fun a ha => by
      obtain ⟨hmem, hne⟩ := mem_filter.mp ha
      exact (mem_cons.mp (hl a hmem)).resolve_left (by simpa using hne)
    have hsame : (keys.flatMap fun k' => l.filter fun a => f a = k') =
        keys.flatMap fun k' => (l.filter fun a => !decide (f a = k)).filter fun a => f a = k' := by
      refine flatMap_congr fun k' hk' => ?_
      rw [filter_filter]
      refine filter_congr fun a _ => ?_
      by_cases hak : f a = k'
      · subst hak
        have hne : f a ≠ k := fun heq => hk (heq ▸ hk')
        simp [hne]
      · simp [hak]
    rw [flatMap_cons, hsame]
    exact (hrest.append_left _).trans (filter_append_perm _ l)

/-- A call for the collection. -/
abbrev Call.For (c : String) (call : Call) : Prop := call.collection = c

theorem calls_load (c e : String) : (load c e).Calls (Call.For c) := by
  refine Prog.calls_ask_bind rfl fun r => ?_
  rcases r with (_ | _ | _) | _ <;> trivial

theorem calls_lastEvent (c e : String) : (lastEvent c e).Calls (Call.For c) := by
  refine Prog.calls_ask_bind rfl fun r => ?_
  rcases r with (_ | _ | _) | _ <;> trivial

theorem calls_buildSnapshot {P : Call → Prop} (enabled : Bool) {c : String}
    (hP : ∀ snap, P (.saveSnapshot c snap)) (snap : Snapshot) (interval : Int) :
    (buildSnapshot enabled c snap interval).Calls P := by
  rw [buildSnapshot]
  split_ifs
  · exact Prog.calls_ask_bind (hP _) fun _ => trivial
  · trivial

namespace Batch

variable (srv : Server) (b : Batch) (cfg : CollectionConfig) (c : String)

private theorem calls_foldItem (st : Fold) (it : BatchItem) (k : Nat) :
    (b.foldItem cfg c st it k).Calls (Call.For c) := by
  rw [foldItem]
  cases st.running it.command.entityID with
  | some cur => trivial
  | none =>
    refine Prog.calls_bind (calls_load _ _) fun r => ?_
    cases r with
    | error e => trivial
    | ok cur =>
      dsimp only
      split_ifs
      · refine Prog.calls_bind (calls_lastEvent _ _) fun r => ?_
        cases r <;> trivial
      · trivial

private theorem calls_foldItems (items : List (BatchItem × Nat)) (st : Fold) :
    (b.foldItems cfg c items st).Calls (Call.For c) := by
  induction items generalizing st with
  | nil => trivial
  | cons p items ih => exact Prog.calls_bind (b.calls_foldItem cfg c st p.1 p.2) ih

variable {c} in
private theorem calls_insertMany {P : Call → Prop} (hP : ∀ ev, P (.insertEvent c ev))
    (evs : List Event) : (insertMany c evs).Calls P := by
  induction evs with
  | nil => trivial
  | cons ev evs ih =>
    refine Prog.calls_ask_bind (hP ev) fun r => ?_
    cases r with
    | error e => trivial
    | ok u => exact ih

variable {c} in
theorem calls_upsertFinals {P : Call → Prop} (hP : ∀ st, P (.upsertCurrent c st))
    (finals : String → Option CurrentState) (order : List String) :
    (upsertFinals c finals order).Calls P := by
  induction order with
  | nil => trivial
  | cons e order ih =>
    rw [upsertFinals]
    cases finals e with
    | none => exact ih
    | some st => exact Prog.calls_ask_bind (hP st) fun _ => ih

variable {c} in
theorem calls_buildSnapshots {P : Call → Prop} (hP : ∀ snap, P (.saveSnapshot c snap))
    (snaps : List Snapshot) : (b.buildSnapshots cfg c snaps).Calls P := by
  induction snaps with
  | nil => trivial
  | cons snap snaps ih => exact Prog.calls_bind (calls_buildSnapshot _ hP _ _) fun _ => ih

variable {c} in
theorem calls_flush {P : Call → Prop} (hinsert : ∀ ev, P (.insertEvent c ev))
    (hupsert : ∀ st, P (.upsertCurrent c st)) (hsave : ∀ snap, P (.saveSnapshot c snap))
    (st : Fold) : (b.flush cfg c st).Calls P := by
  rw [flush]
  split_ifs
  · trivial
  · refine Prog.calls_bind (calls_insertMany hinsert _) fun r => ?_
    cases r with
    | error e => trivial
    | ok u =>
      exact Prog.calls_bind (calls_upsertFinals hupsert _ _) fun _ =>
        Prog.calls_bind (b.calls_buildSnapshots cfg hsave _) fun _ => trivial

theorem calls_batchCollection (errs : Nat → Option IngestErr) :
    (b.batchCollection c errs).Calls (Call.For c) := by
  refine Prog.calls_ask_bind rfl fun r => ?_
  cases r with
  | error e => trivial
  | ok cfg =>
    exact Prog.calls_bind (b.calls_foldItems cfg c _ _) fun st =>
      b.calls_flush cfg (fun _ => rfl) (fun _ => rfl) (fun _ => rfl) st

/-- What the batch makes of one collection: the failures of its items, and what is stored. -/
def alone (coll : Coll) : (Nat → Option IngestErr) × Coll :=
  (b.batchCollection c fun _ => none).eval (serveIn srv) coll

variable {b c}

theorem mem_itemsOf {p : BatchItem × Nat} :
    p ∈ b.itemsOf c ↔ b.items[p.2]? = some p.1 ∧ p.1.command.collection = c := by
  rw [itemsOf, mem_filter, mem_zipIdx_iff_getElem?]
  simp

variable (b) in
theorem positions_nodup (c : String) : ((b.itemsOf c).map Prod.snd).Nodup := by
  have hsub : (b.itemsOf c).Sublist b.items.zipIdx := filter_sublist
  refine (hsub.map Prod.snd).nodup ?_
  rw [zipIdx_map_snd]
  exact nodup_range'

variable (b c) in
private theorem eval_batchCollection_errs (coll : Coll) (errs : Nat → Option IngestErr) :
    ((b.batchCollection c errs).eval (serveIn srv) coll).2 = (b.alone srv c coll).2 ∧
      ∀ i, errs i = none →
        ((b.batchCollection c errs).eval (serveIn srv) coll).1 i = (b.alone srv c coll).1 i := by
  have hstart : Fold.Renames id (fun i => errs i = none)
      (Fold.loaded { errs } coll (hasPreStore b.ing.pre coll.config))
      (Fold.loaded { errs := fun _ => none } coll (hasPreStore b.ing.pre coll.config)) :=
    ⟨rfl, rfl, rfl, rfl, rfl, rfl, fun i hi => hi⟩
  have hing : b.ing = b.ing := rfl
  have hfold := hstart.foldl injective_id hing (fun _ => rfl) coll.config c (b.itemsOf c)
  simp only [id_eq, Prod.mk.eta, map_id'] at hfold
  rw [alone, eval_batchCollection, eval_batchCollection]
  exact hfold.eval_flush injective_id hing srv coll.config c coll

private theorem eval_batchCollection_other (coll : Coll) (errs : Nat → Option IngestErr) {i : Nat}
    {it : BatchItem} (hi : b.items[i]? = some it) (hc : it.command.collection ≠ c) :
    ((b.batchCollection c errs).eval (serveIn srv) coll).1 i = errs i := by
  have hstart : Fold.Within ((b.itemsOf c).map Prod.snd) errs
      (Fold.loaded { errs } coll (hasPreStore b.ing.pre coll.config)) :=
    ⟨fun p hp => absurd hp not_mem_nil, fun _ _ => rfl⟩
  have hwithin := hstart.foldl b coll.config c (b.itemsOf c) fun p hp => mem_map_of_mem hp
  rw [eval_batchCollection]
  refine hwithin.eval_flush srv b coll.config c coll fun hmem => ?_
  obtain ⟨p, hp, rfl⟩ := mem_map.mp hmem
  obtain ⟨hp, hpc⟩ := mem_itemsOf.mp hp
  rw [hi] at hp
  cases hp
  exact hc hpc

variable (b c) in
private theorem eval_batchCollection_local (errs : Nat → Option IngestErr) (db : Db) :
    (b.batchCollection c errs).eval (serve srv) db =
      (((b.batchCollection c errs).eval (serveIn srv) (db c)).1,
        update db c ((b.batchCollection c errs).eval (serveIn srv) (db c)).2) :=
  Prog.eval_local (serve_eq_serveIn srv) (b.calls_batchCollection c errs) db

variable (b) in
private theorem eval_batchCollections {order : List String} (horder : order.Nodup)
    (errs : Nat → Option IngestErr) (db : Db) :
    let r := (b.batchCollections order errs).eval (serve srv) db
    (∀ c, r.2 c = if c ∈ order then (b.alone srv c (db c)).2 else db c) ∧
    (∀ i it, b.items[i]? = some it → it.command.collection ∉ order → r.1 i = errs i) ∧
    ∀ i it, b.items[i]? = some it → it.command.collection ∈ order → errs i = none →
      r.1 i = (b.alone srv it.command.collection (db it.command.collection)).1 i := by
  induction order generalizing errs db with
  | nil =>
    refine ⟨fun c => by simp [batchCollections], fun i it _ _ => rfl, fun i it _ hmem => ?_⟩
    exact absurd hmem not_mem_nil
  | cons c order ih =>
    obtain ⟨hc, hnodup⟩ := nodup_cons.mp horder
    obtain ⟨hstore, hown⟩ := eval_batchCollection_errs srv b c (db c) errs
    rw [batchCollections, Prog.eval_bind, eval_batchCollection_local]
    dsimp only
    rw [hstore]
    obtain ⟨ih₁, ih₂, ih₃⟩ := ih hnodup ((b.batchCollection c errs).eval (serveIn srv) (db c)).1
      (update db c (b.alone srv c (db c)).2)
    refine ⟨fun c' => ?_, fun i it hit hmem => ?_, fun i it hit hmem herr => ?_⟩
    · rw [ih₁ c']
      by_cases hcc : c' = c
      · subst hcc
        simp [hc]
      · simp [hcc]
    · rw [mem_cons, not_or] at hmem
      rw [ih₂ i it hit hmem.2]
      exact eval_batchCollection_other srv (db c) errs hit hmem.1
    · by_cases hcc : it.command.collection = c
      · subst hcc
        rw [ih₂ i it hit hc]
        exact hown i herr
      · rw [ih₃ i it hit ((mem_cons.mp hmem).resolve_left hcc), update_of_ne hcc]
        rw [eval_batchCollection_other srv (db c) errs hit hcc, herr]

theorem itemsOf_of_not_mem (h : c ∉ b.order) : b.itemsOf c = [] := by
  refine eq_nil_iff_forall_not_mem.mpr fun p hp => h ?_
  obtain ⟨hit, rfl⟩ := mem_itemsOf.mp hp
  rw [order, mem_eraseDups]
  exact mem_map_of_mem (mem_of_getElem? hit)

theorem alone_of_not_mem (coll : Coll) (h : c ∉ b.order) : (b.alone srv c coll).2 = coll := by
  rw [alone, eval_batchCollection, itemsOf_of_not_mem h]
  rfl

variable (b) in
/-- **A batch on its own.** Every collection becomes what the batch makes of it alone, and every
item fails or succeeds as it does there. -/
theorem eval_ingestBatch (db : Db) :
    (b.ingestBatch.eval (serve srv) db).2 = (fun c => (b.alone srv c (db c)).2) ∧
    (b.ingestBatch.eval (serve srv) db).1.length = b.items.length ∧
    ∀ i it, b.items[i]? = some it → (b.ingestBatch.eval (serve srv) db).1[i]? =
      some ((b.alone srv it.command.collection (db it.command.collection)).1 i) := by
  have hnodup : b.order.Nodup := nodup_eraseDups _
  obtain ⟨hstore, -, hown⟩ := eval_batchCollections srv b hnodup (fun _ => none) db
  rw [ingestBatch, Prog.eval_bind, Prog.eval_pure]
  refine ⟨funext fun c => ?_, by simp, fun i it hit => ?_⟩
  · rw [hstore c]
    split_ifs with hc
    · rfl
    · exact (alone_of_not_mem srv (db c) hc).symm
  · have hi : i < b.items.length := (List.getElem?_eq_some_iff.mp hit).1
    have hmem : it.command.collection ∈ b.order := by
      rw [order, mem_eraseDups]
      exact mem_map_of_mem (mem_of_getElem? hit)
    rw [getElem?_map, getElem?_range hi, Option.map_some, hown i it hit hmem rfl]

end Batch

end Letopis
