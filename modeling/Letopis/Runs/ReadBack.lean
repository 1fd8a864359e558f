import Letopis.Plugin.HashChain
import Letopis.Runs.OneByOne

/-!
# A batch and its items one by one, over a database

A database does not hand back quite what it was given: BSON keeps times in milliseconds, and nested
metadata comes back in the driver's own types. What it makes of an event and of a time is a
`ReadBack`. A single write hands its hooks a last event and a current state that have been read
back. A batch does so for the first item of an entity; for the later ones both come from memory.

Only hooks can tell the difference, since planning looks at nothing that changes. Where they make
the same of both (`ReadBack.Unseen`), neither the batch nor the single writes notice whether
anything is read back (`via_ingestBatch`, `via_oneByOneFrom`; these are equations of programs, so
they do not depend on the store), and a batch is its items one by one (`ingestBatch_eq_oneByOne`). A
hook that looks at the time of the last event to the nanosecond stores different events on the two
paths (`batch_hook_sees_memory`).
-/

namespace Letopis

open Interleaving Function

/-- What a database gives back of an event and of a time that were stored. Nothing is assumed: an
event may come back with other metadata. -/
structure ReadBack where
  event : Event → Event
  time : Time → Time

namespace ReadBack

variable (back : ReadBack)

/-- A current state, read back. Its state is converted to the types of `encoding/json`. -/
def current (st : CurrentState) : CurrentState := { st with ts := back.time st.ts }

/-- A snapshot, read back. -/
def snapshot (snap : Snapshot) : Snapshot := { snap with ts := back.time snap.ts }

/-- What has been read back when a call returns. -/
def reply (call : Call) : Storage.Reply call → Storage.Reply call :=
  match call with
  | .getCurrent _ _ => Except.map back.current
  | .lastEvent _ _ => Except.map back.event
  | .listEvents _ _ => Except.map (List.map back.event)
  | .nearestSnapshot _ _ _ => Except.map back.snapshot
  | .ensureCollection _ | .upsertCurrent _ _ | .lastVersion _ _ | .insertEvent _ _
  | .saveSnapshot _ _ => id

/-- Answer a call that does not fail, with what is read back. -/
def serve (srv : Server) (call : Call) (db : Db) : Storage.Reply call × Db :=
  (back.reply call (Letopis.serve srv call db).1, (Letopis.serve srv call db).2)

/-- The hooks do the same whether or not the last event and the current state that they are handed
have been read back. -/
def Unseen (pre : List PreStorePlugin) : Prop :=
  ∀ p ∈ pre, ∀ draft last cur,
    p.preStore draft ⟨last.map back.event, cur⟩ = p.preStore draft ⟨last, cur⟩ ∧
      p.preStore draft ⟨last, cur.map back.current⟩ = p.preStore draft ⟨last, cur⟩

/-- What BSON leaves of an event without nested metadata: its times are cut to milliseconds. -/
def bson : ReadBack where
  event ev := { ev with
    tsSource := ev.tsSource.truncate Time.millisecond
    tsReceived := ev.tsReceived.truncate Time.millisecond
    tsStored := ev.tsStored.truncate Time.millisecond }
  time t := t.truncate Time.millisecond

/-- Reading back happens between the store and the program. -/
theorem eval_serve {α : Type} (srv : Server) (p : Prog Storage α) (db : Db) :
    p.eval (back.serve srv) db = (p.via id back.reply).eval (Letopis.serve srv) db := by
  have hreply : ∀ c s, back.reply c (Letopis.serve srv c s).1 = (back.serve srv c s).1 ∧
      (Letopis.serve srv c s).2 = (back.serve srv c s).2 := fun _ _ => ⟨rfl, rfl⟩
  symm
  exact Prog.eval_via id (fun _ s => s) (fun _ _ => rfl) (fun _ _ _ => rfl) (fun _ => rfl) hreply
    p db

end ReadBack

/-! ### What is read back, or comes from memory -/

section

variable {α : Type} (f : α → α)

/-- The first value is the second one, or what it is when read back. -/
def OrBack (a a' : Option α) : Prop := a = a' ∨ a = a'.map f

end

variable {back : ReadBack} {pre : List PreStorePlugin}

private theorem runPreStore_congr {v v' : EntityView}
    (h : ∀ p ∈ pre, ∀ draft, p.preStore draft v = p.preStore draft v') (cfg : CollectionConfig)
    (c : String) (ev : Event) : runPreStore cfg c v pre ev = runPreStore cfg c v' pre ev := by
  induction pre generalizing ev with
  | nil => rfl
  | cons p pre ih =>
    obtain ⟨hp, hpre⟩ := List.forall_mem_cons.mp h
    simp only [runPreStore, hp, ih hpre]

/-- The hooks cannot tell where the last event and the current state come from. -/
private theorem runPreStore_orBack (hpre : back.Unseen pre) {last last' : Option Event}
    {cur cur' : Option CurrentState} (hlast : OrBack back.event last last')
    (hcur : OrBack back.current cur cur') (cfg : CollectionConfig) (c : String) (ev : Event) :
    runPreStore cfg c ⟨last, cur⟩ pre ev = runPreStore cfg c ⟨last', cur'⟩ pre ev := by
  refine runPreStore_congr (fun p hp draft => ?_) cfg c ev
  have hevent : ∀ cur, p.preStore draft ⟨last, cur⟩ = p.preStore draft ⟨last', cur⟩ := by
    rcases hlast with rfl | rfl
    · exact fun _ => rfl
    · exact fun cur => (hpre p hp draft last' cur).1
  rw [hevent]
  rcases hcur with rfl | rfl
  · rfl
  · exact (hpre p hp draft last' cur').2

/-- Planning does not look at the time of the current state. -/
private theorem planEvent_orBack {cur cur' : Option CurrentState}
    (hcur : OrBack back.current cur cur') :
    baseState cur = baseState cur' ∧ ∀ received cfg kind cmd,
      planEvent received cfg kind cmd cur = planEvent received cfg kind cmd cur' := by
  rcases hcur with rfl | rfl
  · exact ⟨rfl, fun _ _ _ _ => rfl⟩
  · cases cur' with
    | none => exact ⟨rfl, fun _ _ _ _ => rfl⟩
    | some cur => exact ⟨rfl, fun _ _ _ _ => rfl⟩

private theorem Batch.outcome_orBack {b : Batch} (hpre : back.Unseen b.ing.pre)
    {last last' : Option Event} {cur cur' : Option CurrentState}
    (hlast : OrBack back.event last last') (hcur : OrBack back.current cur cur')
    (cfg : CollectionConfig) (c : String) (it : BatchItem) (k : Nat) :
    b.outcome cfg c last it k cur = b.outcome cfg c last' it k cur' := by
  obtain ⟨hbase, hplan⟩ := planEvent_orBack hcur
  simp only [outcome_eq, hplan, hbase, runPreStore_orBack hpre hlast hcur]

/-! ### The fold of a batch -/

/-- Two folds that differ only in whether the entities that they have loaded have been read back. -/
structure Fold.OrBack (back : ReadBack) (st st' : Fold) : Prop where
  running : ∀ e, Letopis.OrBack (Option.map back.current) (st.running e) (st'.running e)
  lastEv : ∀ e, Letopis.OrBack back.event (st.lastEv e) (st'.lastEv e)
  finals : st.finals = st'.finals
  finalOrder : st.finalOrder = st'.finalOrder
  events : st.events = st'.events
  snaps : st.snaps = st'.snaps
  errs : st.errs = st'.errs

namespace Fold.OrBack

variable {st st' : Fold} (h : st.OrBack back st')

include h

theorem flush_eq (b : Batch) (cfg : CollectionConfig) (c : String) :
    b.flush cfg c st = b.flush cfg c st' := by
  rw [Batch.flush, Batch.flush, h.events, h.errs, h.finals, h.finalOrder, h.snaps]

theorem settle (k : Nat) (eid : String) (chained : Bool)
    (o : Except IngestErr (Option (Event × Fields × Bool))) :
    (st.settle k eid chained o).OrBack back (st'.settle k eid chained o) := by
  rcases o with e | (_ | ⟨ev, newState, deleted⟩)
  · exact { h with errs := by simp only [Fold.settle, Fold.fail, h.errs] }
  · exact h
  · refine ⟨fun e => ?_, fun e => ?_, ?_, ?_, ?_, ?_, h.errs⟩
    · by_cases he : e = eid
      · subst he
        exact .inl (by simp [Fold.settle, Fold.push])
      · simpa [Fold.settle, Fold.push, he] using h.running e
    · by_cases he : chained = true ∧ e = eid
      · obtain ⟨hchained, rfl⟩ := he
        exact .inl (by simp [Fold.settle, hchained])
      · have hlast : ∀ s : Fold,
            (s.settle k eid chained (.ok (some (ev, newState, deleted)))).lastEv e =
              s.lastEv e := by
          intro s
          dsimp only [Fold.settle]
          split_ifs with hchained
          · exact update_of_ne (fun heq => he ⟨hchained, heq⟩) _ _
          · rfl
        rw [hlast, hlast]
        exact h.lastEv e
    all_goals simp only [Fold.settle, Fold.push, h.finals, h.finalOrder, h.events, h.snaps]

theorem planItem {b : Batch} (hpre : back.Unseen b.ing.pre) {cur cur' : Option CurrentState}
    (hcur : Letopis.OrBack back.current cur cur') (cfg : CollectionConfig) (c : String)
    (it : BatchItem) (k : Nat) :
    (b.planItem cfg c st it k cur).OrBack back (b.planItem cfg c st' it k cur') := by
  rw [Batch.planItem_eq, Batch.planItem_eq, Batch.outcome_orBack hpre (h.lastEv _) hcur]
  exact h.settle ..

end Fold.OrBack

/-! ### The programs do not notice -/

section

variable {α : Type} {c e : String}

private theorem via_load_bind {q q' : Except IngestErr (Option CurrentState) → Prog Storage α}
    (hfail : ∀ err, (q (.error err)).via id back.reply = q' (.error err))
    (hok : ∀ cur cur', OrBack back.current cur cur' →
      (q (.ok cur)).via id back.reply = q' (.ok cur')) :
    (load c e >>= q).via id back.reply = (load c e >>= q') := by
  refine congrArg (Prog.call (I := Storage) (.getCurrent c e)) (funext fun r => ?_)
  rcases r with err | cur
  · cases err with
    | notFound => exact hok none none (.inl rfl)
    | dupKey text => exact hfail _
    | failed => exact hfail _
  · exact hok (some (back.current cur)) (some cur) (.inr rfl)

private theorem via_lastEvent_bind {q q' : Except IngestErr (Option Event) → Prog Storage α}
    (hfail : ∀ err, (q (.error err)).via id back.reply = q' (.error err))
    (hok : ∀ last last', OrBack back.event last last' →
      (q (.ok last)).via id back.reply = q' (.ok last')) :
    (lastEvent c e >>= q).via id back.reply = (lastEvent c e >>= q') := by
  refine congrArg (Prog.call (I := Storage) (.lastEvent c e)) (funext fun r => ?_)
  rcases r with err | ev
  · cases err with
    | notFound => exact hok none none (.inl rfl)
    | dupKey text => exact hfail _
    | failed => exact hfail _
  · exact hok (some (back.event ev)) (some ev) (.inr rfl)

private theorem via_prepare_bind {cmd : IngestCommand}
    {q q' : Except IngestErr (CollectionConfig × Option CurrentState) → Prog Storage α}
    (hfail : ∀ err, (q (.error err)).via id back.reply = q' (.error err))
    (hok : ∀ cfg cur cur', OrBack back.current cur cur' →
      (q (.ok (cfg, cur))).via id back.reply = q' (.ok (cfg, cur'))) :
    (prepare cmd >>= q).via id back.reply = (prepare cmd >>= q') := by
  refine congrArg (Prog.call (I := Storage) (.ensureCollection cmd.collection)) (funext fun r => ?_)
  rcases r with err | cfg
  · exact hfail _
  · change Prog.via id back.reply ((load _ _ >>= _) >>= q) = ((load _ _ >>= _) >>= q')
    rw [Prog.bind_assoc, Prog.bind_assoc]
    exact via_load_bind hfail fun cur cur' hback => hok cfg cur cur' hback

private theorem via_preStore {ing : Ingester} (hpre : back.Unseen ing.pre)
    {cur cur' : Option CurrentState}
    (hcur : OrBack back.current cur cur') (cfg : CollectionConfig) (cmd : IngestCommand)
    (ev : Event) :
    (preStore ing cfg cmd ev cur).via id back.reply = preStore ing cfg cmd ev cur' := by
  rw [preStore, preStore]
  split_ifs
  · refine via_lastEvent_bind (fun err => rfl) fun last last' hlast => ?_
    dsimp only
    rw [runPreStore_orBack hpre hlast hcur]
    rfl
  · rfl

end

/-- **The single write** does not notice what is read back. -/
theorem Write.via_prog {w : Write} (hpre : back.Unseen w.ing.pre) :
    w.prog.via id back.reply = w.prog := by
  refine via_prepare_bind (fun err => rfl) fun cfg cur cur' hback => ?_
  obtain ⟨hbase, hplan⟩ := planEvent_orBack hback
  simp only [hbase, hplan]
  split_ifs
  · rcases planEvent w.now.received cfg w.kind w.cmd cur' with err | (_ | ⟨ev, newState, deleted⟩)
    · rfl
    · rfl
    · dsimp only
      rw [Prog.via_bind, via_preStore hpre hback]
      refine congrArg _ (funext fun r => ?_)
      cases r with
      | error err => rfl
      | ok ev =>
        -- from here on nothing is read back
        refine Prog.Calls.via_id (Prog.calls_bind (calls_commitEvent (fun _ _ => rfl)
          (fun _ _ => rfl) (fun _ _ => rfl) rfl _ _ _ _) fun r => ?_)
        rcases r with err | ev
        · cases err <;> trivial
        · exact Prog.calls_bind (calls_buildSnapshot _ (fun _ _ => rfl) _ _) fun _ => trivial
  · rfl

namespace Batch

variable {b : Batch} (hpre : back.Unseen b.ing.pre)

include hpre

private theorem via_foldItem_bind {α : Type} {st st' : Fold} (h : st.OrBack back st')
    {q q' : Fold → Prog Storage α}
    (hq : ∀ s s', s.OrBack back s' → (q s).via id back.reply = q' s') (cfg : CollectionConfig)
    (c : String) (it : BatchItem) (k : Nat) :
    (b.foldItem cfg c st it k >>= q).via id back.reply = (b.foldItem cfg c st' it k >>= q') := by
  have hrun := h.running it.command.entityID
  rw [foldItem, foldItem]
  cases hcur : st'.running it.command.entityID with
  | some cur =>
    rw [hcur] at hrun
    rcases hrun with hrun | hrun
    · rw [hrun]
      exact hq _ _ (h.planItem hpre (.inl rfl) ..)
    · rw [hrun]
      exact hq _ _ (h.planItem hpre (.inr rfl) ..)
  | none =>
    have hnone : st.running it.command.entityID = none := by
      rcases hrun with hrun | hrun <;> rw [hrun, hcur]
      rfl
    rw [hnone]
    dsimp only
    rw [Prog.bind_assoc, Prog.bind_assoc]
    refine via_load_bind (fun err => hq _ _ { h with errs := ?_ }) fun cur cur' hback => ?_
    · simp only [Fold.fail, h.errs]
    · have hload : Fold.OrBack back
          { st with running := update st.running it.command.entityID (some cur) }
          { st' with running := update st'.running it.command.entityID (some cur') } := by
        refine { h with running := fun e => ?_ }
        by_cases he : e = it.command.entityID
        · subst he
          simp only [update_self]
          exact hback.imp (congrArg some) (congrArg some)
        · simpa only [update_of_ne he] using h.running e
      dsimp only
      split_ifs
      · rw [Prog.bind_assoc, Prog.bind_assoc]
        refine via_lastEvent_bind (fun err => hq _ _ { hload with errs := ?_ })
          fun last last' hlast => hq _ _ (Fold.OrBack.planItem ?_ hpre hback ..)
        · simp only [Fold.fail, h.errs]
        · refine { hload with lastEv := fun e => ?_ }
          by_cases he : e = it.command.entityID
          · subst he
            simpa only [update_self] using hlast
          · simpa only [update_of_ne he] using h.lastEv e
      · exact hq _ _ (hload.planItem hpre hback ..)

private theorem via_foldItems_bind {α : Type} {q q' : Fold → Prog Storage α}
    (hq : ∀ s s', s.OrBack back s' → (q s).via id back.reply = q' s') (cfg : CollectionConfig)
    (c : String) (items : List (BatchItem × Nat)) {st st' : Fold} (h : st.OrBack back st') :
    (b.foldItems cfg c items st >>= q).via id back.reply =
      (b.foldItems cfg c items st' >>= q') := by
  induction items generalizing st st' with
  | nil => exact hq _ _ h
  | cons p items ih =>
    rw [foldItems, foldItems, Prog.bind_assoc, Prog.bind_assoc]
    exact via_foldItem_bind hpre h (fun s s' hs => ih hs) cfg c p.1 p.2

private theorem via_batchCollection (c : String) (errs : Nat → Option IngestErr) :
    (b.batchCollection c errs).via id back.reply = b.batchCollection c errs := by
  refine congrArg (Prog.call (I := Storage) (.ensureCollection c)) (funext fun r => ?_)
  rcases r with err | cfg
  · rfl
  · refine via_foldItems_bind hpre (fun s s' hs => ?_) cfg c _
      ⟨fun _ => .inl rfl, fun _ => .inl rfl, rfl, rfl, rfl, rfl, rfl⟩
    rw [hs.flush_eq]
    exact (b.calls_flush cfg (fun _ _ => rfl) (fun _ _ => rfl) (fun _ _ => rfl) s').via_id

private theorem via_batchCollections (order : List String) (errs : Nat → Option IngestErr) :
    (b.batchCollections order errs).via id back.reply = b.batchCollections order errs := by
  induction order generalizing errs with
  | nil => rfl
  | cons c order ih =>
    rw [batchCollections, Prog.via_bind, via_batchCollection hpre]
    exact congrArg _ (funext ih)

/-- **The batch** does not notice what is read back. -/
theorem via_ingestBatch : b.ingestBatch.via id back.reply = b.ingestBatch := by
  rw [ingestBatch, Prog.via_bind, via_batchCollections hpre]
  rfl

private theorem via_oneByOneFrom (items : List (BatchItem × Nat)) :
    (b.oneByOneFrom items).via id back.reply = b.oneByOneFrom items := by
  induction items with
  | nil => rfl
  | cons p items ih =>
    rw [oneByOneFrom, Prog.via_bind, Write.via_prog (w := b.write p.1 p.2) hpre]
    refine congrArg _ (funext fun r => ?_)
    rw [Prog.via_bind, ih]
    rfl

end Batch

/-- **A batch is its items one by one.** Where the hooks do the same for what has been read back,
the current states are up to date, no item is locked and the event ids are new and distinct, a batch
reports the failures that its items have as single writes, finds nothing to do for the same items,
and leaves the same events, current states and snapshots. -/
theorem ingestBatch_eq_oneByOne (srv : Server) (back : ReadBack) (b : Batch) (db : Db)
    (hpre : back.Unseen b.ing.pre)
    (hcur : ∀ it ∈ b.items, db.curVersion it.command.collection it.command.entityID =
      db.top it.command.collection it.command.entityID)
    (hlock : ∀ it ∈ b.items, it.command.expectedVersion = none)
    (hfresh : ∀ it ∈ b.items, it.command.eventID = "" ∨
      ∀ x ∈ (db it.command.collection).events, x.eventID ≠ it.command.eventID)
    (hdistinct : b.items.Pairwise fun it it' => it.command.collection = it'.command.collection →
      it.command.eventID = "" ∨ it.command.eventID ≠ it'.command.eventID) :
    let batch := b.ingestBatch.eval (back.serve srv) db
    let single := b.oneByOne.eval (back.serve srv) db
    batch.2 = single.2 ∧ batch.1 = single.1.map failure ∧
      ∀ k it res, b.items[k]? = some it → single.1[k]? = some res →
        (foundNothing res = true ↔ batch.1[k]? = some none ∧
          k ∉ b.eventful it.command.collection (db it.command.collection)) := by
  intro batch single
  have hbatch : batch = b.ingestBatch.eval (serve srv) db := by
    rw [← Batch.via_ingestBatch hpre]
    exact back.eval_serve srv _ db
  have hsingle : single = b.oneByOne.eval (serve srv) db := by
    rw [Batch.oneByOne, ← Batch.via_oneByOneFrom hpre]
    exact back.eval_serve srv _ db
  rw [hbatch, hsingle]
  exact ingestBatch_eq_oneByOne_serve srv b db hcur hlock hfresh hdistinct

/-- The hash chain looks at the integrity block of the last event only. -/
theorem HashChain.unseen_plugin (hback : ∀ ev, (back.event ev).integrity = ev.integrity) :
    back.Unseen [HashChain.plugin] := by
  intro p hp draft last cur
  have hlink : (last.map back.event).bind Event.integrity = last.bind Event.integrity := by
    cases last with
    | none => rfl
    | some ev => exact hback ev
  rw [List.mem_singleton.mp hp]
  exact ⟨by simp only [plugin, preStore, prevHashOf, hlink], rfl⟩

/-- A batch with a write, the same write again, an item of an unknown kind and a deletion in another
collection, on collections with a hash chain, over a database that cuts times to milliseconds. -/
theorem ingestBatch_eq_oneByOne_chained :
    let won : BatchItem := ⟨.state,
      { collection := "deals", entityID := "42", eventID := "k1", state := [("won", .bool true)] }⟩
    let again : BatchItem := ⟨.state, { won.command with eventID := "k2" }⟩
    let merge : BatchItem := ⟨.other "merge", { collection := "deals", entityID := "42" }⟩
    let gone : BatchItem := ⟨.delete, { collection := "leads", entityID := "7" }⟩
    let b : Batch := ⟨{ pre := [HashChain.plugin], snapshots := true },
      fun k => ⟨⟨1000001 + k⟩, ⟨2000001 + k⟩⟩, [won, again, merge, gone]⟩
    let db : Db := fun _ => { config := { plugins := [("hash_chain", ⟨true, .failClosed⟩)] } }
    let batch := b.ingestBatch.eval (ReadBack.bson.serve .mongo) db
    let single := b.oneByOne.eval (ReadBack.bson.serve .mongo) db
    batch.2 = single.2 ∧ batch.1 = single.1.map failure := by
  intro won again merge gone b db batch single
  obtain ⟨hstore, herrs, -⟩ := ingestBatch_eq_oneByOne .mongo .bson b db
    (HashChain.unseen_plugin fun _ => rfl) (by decide) (by decide) (by decide) (by decide)
  exact ⟨hstore, herrs⟩

/-- Two writes of an entity, and a hook that records whether the last event was received on a full
millisecond: the batch shows it the event in memory, the single write the one in the database. -/
theorem batch_hook_sees_memory :
    let onTime : PreStorePlugin := ⟨"on_time", fun _ view => ([.putMeta "prev_on_time" (.bool
      (view.lastEvent.all fun ev => ev.tsReceived.ns % Time.millisecond = 0))], none)⟩
    let deal (stage : String) : BatchItem :=
      ⟨.state, { collection := "deals", entityID := "42", state := [("stage", .str stage)] }⟩
    let b : Batch := ⟨{ pre := [onTime] }, fun k => ⟨⟨1000001 + k⟩, ⟨2000001 + k⟩⟩,
      [deal "new", deal "won"]⟩
    let db : Db := fun _ => { config := { plugins := [("on_time", ⟨true, .failClosed⟩)] } }
    let batch := b.ingestBatch.eval (ReadBack.bson.serve .mongo) db
    let single := b.oneByOne.eval (ReadBack.bson.serve .mongo) db
    batch.1 = [none, none] ∧ single.1.map failure = [none, none] ∧
      (batch.2 "deals").events.map Event.metadata =
        [[("prev_on_time", .bool true)], [("prev_on_time", .bool false)]] ∧
      (single.2 "deals").events.map Event.metadata =
        [[("prev_on_time", .bool true)], [("prev_on_time", .bool true)]] := by
  decide +kernel

end Letopis
