import Letopis.Runs.OneByOne
import Letopis.Service.Tickets

/-!
# What a batch reports

The events of a collection go into the store in one `insertMany`, which stops at the first event
that a unique index refuses and leaves the events before it stored. When it fails, `IngestBatch`
reports a failure for every item that fed it. So the report is right about every item exactly if in
each collection the indexes let all planned events in, or refuse the first one already
(`batch_report_iff`).
-/

namespace Letopis

open Interleaving List

/-! ### Insertion -/

/-- A unique index does not let the second event in beside the first one. -/
def Event.Clashes (x ev : Event) : Prop :=
  (x.entityID = ev.entityID ∧ x.version = ev.version) ∨ (ev.eventID ≠ "" ∧ x.eventID = ev.eventID)

instance (x ev : Event) : Decidable (x.Clashes ev) := inferInstanceAs (Decidable (_ ∨ _))

namespace Coll

/-- The unique indexes let the event in. -/
def Accepts (coll : Coll) (ev : Event) : Prop :=
  (∀ x ∈ coll.events, ¬ (x.entityID = ev.entityID ∧ x.version = ev.version)) ∧
    coll.Fresh ev.eventID

instance (coll : Coll) (ev : Event) : Decidable (coll.Accepts ev) :=
  inferInstanceAs (Decidable (_ ∧ _))

/-- The number of events that `insertMany` stores. -/
def inserted : Coll → List Event → Nat
  | _, [] => 0
  | coll, ev :: evs => if coll.Accepts ev then inserted (coll.append ev) evs + 1 else 0

private theorem accepts_iff {coll : Coll} {ev : Event} :
    coll.Accepts ev ↔ ∀ x ∈ coll.events, ¬ x.Clashes ev := by
  rw [Accepts, Fresh]
  constructor
  · rintro ⟨hv, hid⟩ x hx (hclash | ⟨hne, heq⟩)
    · exact hv x hx hclash
    · exact hid.elim hne fun hid => hid x hx heq
  · intro h
    refine ⟨fun x hx hv => h x hx (.inl hv), ?_⟩
    by_cases hne : ev.eventID = ""
    · exact .inl hne
    · exact .inr fun x hx heq => h x hx (.inr ⟨hne, heq⟩)

private theorem accepts_append_iff {coll : Coll} {x ev : Event} :
    (coll.append x).Accepts ev ↔ coll.Accepts ev ∧ ¬ x.Clashes ev := by
  rw [accepts_iff, accepts_iff, append, forall_mem_append, forall_mem_singleton]

/-- All events are stored if they clash neither with stored ones nor with each other. -/
theorem inserted_eq_length_iff {coll : Coll} {evs : List Event} :
    coll.inserted evs = evs.length ↔
      (∀ ev ∈ evs, coll.Accepts ev) ∧ evs.Pairwise fun x ev => ¬ x.Clashes ev := by
  induction evs generalizing coll with
  | nil => simp [inserted]
  | cons ev evs ih =>
    rw [inserted, forall_mem_cons, pairwise_cons]
    split_ifs with hacc
    · rw [length_cons, Nat.add_right_cancel_iff, ih]
      simp only [accepts_append_iff, hacc, true_and]
      exact ⟨fun h => ⟨fun x hx => (h.1 x hx).1, fun x hx => (h.1 x hx).2, h.2⟩,
        fun h => ⟨fun x hx => ⟨h.1 x hx, h.2.1 x hx⟩, h.2.2⟩⟩
    · simp [hacc]

private theorem inserted_eq_zero_iff {coll : Coll} {evs : List Event} :
    coll.inserted evs = 0 ↔ ∀ ev ∈ evs.head?, ¬ coll.Accepts ev := by
  cases evs with
  | nil => simp [inserted]
  | cons ev evs =>
    rw [inserted]
    split_ifs with hacc
    · simp [hacc]
    · simp [hacc]

private theorem serveIn_insertEvent_iff (srv : Server) (c : String) (coll : Coll) (ev : Event) :
    if coll.Accepts ev then serveIn srv (.insertEvent c ev) coll = (.ok (), coll.append ev)
    else ∃ e, serveIn srv (.insertEvent c ev) coll = (.error e, coll) := by
  by_cases hv : Db.VersionFree (fun _ => coll) c ev
  · by_cases hid : Db.EventIDFree (fun _ => coll) c ev
    · rw [if_pos ⟨hv, hid⟩]
      simp [serveIn, serve, hv, hid, Db.append, append, Call.collection]
    · rw [if_neg fun h => hid h.2]
      exact ⟨_, by simp [serveIn, serve, hv, hid]; rfl⟩
  · rw [if_neg fun h => hv h.1]
    exact ⟨_, by simp [serveIn, serve, hv]; rfl⟩

end Coll

/-- **`insertMany`** stores the events up to the first one that is refused. -/
theorem Batch.eval_insertMany (srv : Server) (c : String) (evs : List Event) (coll : Coll) :
    ((insertMany c evs).eval (serveIn srv) coll).2 =
        { coll with events := coll.events ++ evs.take (coll.inserted evs) } ∧
      (((insertMany c evs).eval (serveIn srv) coll).1 = .ok () ↔
        coll.inserted evs = evs.length) := by
  induction evs generalizing coll with
  | nil => simp [insertMany, Coll.inserted]
  | cons ev evs ih =>
    have hserve := coll.serveIn_insertEvent_iff srv c ev
    rw [insertMany, Prog.eval_bind, Prog.eval_ask, Coll.inserted]
    split_ifs at hserve ⊢ with hacc
    · obtain ⟨ih₁, ih₂⟩ := ih (coll.append ev)
      rw [hserve]
      dsimp only
      rw [ih₁, ih₂]
      simp [Coll.append]
    · obtain ⟨e, hserve⟩ := hserve
      rw [hserve]
      simp

/-! ### Items -/

/-- Every item that a fold has had its turn with has come to something: a failure, an event, or
nothing. -/
theorem Fold.Reports.exists_foldl (b : Batch) (cfg : CollectionConfig) (c : String)
    {items : List (BatchItem × Nat)} (hpos : (items.map Prod.snd).Nodup) {st : Fold}
    (hnew : ∀ p ∈ items, st.errs p.2 = none ∧ p.2 ∉ st.events.map Prod.snd) :
    ∀ p ∈ items, ∃ res, (items.foldl (b.step cfg c) st).Reports p.2 res := by
  induction items generalizing st with
  | nil => exact fun p hp => absurd hp not_mem_nil
  | cons p items ih =>
    obtain ⟨hp, hpos⟩ := nodup_cons.mp hpos
    rw [forall_mem_cons] at hnew
    have hstep : b.step cfg c st p = st.settle p.2 p.1.command.entityID
        (hasPreStore b.ing.pre cfg) (b.outcome cfg c (st.lastEv p.1.command.entityID) p.1 p.2
          (st.running p.1.command.entityID).join) := by rw [Batch.step, Batch.planItem_eq]
    have hown : ∃ res, (b.step cfg c st p).Reports p.2 res := by
      rw [hstep]
      exact ⟨_, settle_self hnew.1.1 hnew.1.2 b p.1 {} ..⟩
    have hnew' : ∀ q ∈ items, (b.step cfg c st p).errs q.2 = none ∧
        q.2 ∉ (b.step cfg c st p).events.map Prod.snd := by
      rw [hstep]
      exact silent_tail hp hnew.2 _ _ _
    obtain ⟨res, hres⟩ := hown
    exact forall_mem_cons.mpr ⟨⟨res, hres.foldl b cfg c hp⟩, ih hpos hnew'⟩

namespace Batch

variable (srv : Server) (b : Batch) (db : Db)

/-- The events that the items of a collection come to, each with the position of its item. -/
def planned (c : String) : List (Event × Nat) :=
  (b.folded c (db c) (fun _ => none) (b.itemsOf c)).events

/-- The failures of the items of a collection on the way to their events. -/
def planErrs (c : String) : Nat → Option IngestErr :=
  (b.folded c (db c) (fun _ => none) (b.itemsOf c)).errs

/-- The number of planned events of a collection that `insertMany` stores. -/
def landed (c : String) : Nat := (db c).inserted ((b.planned db c).map Prod.fst)

/-- The event of the item is among those that the batch has added to the store. -/
def Stored (k : Nat) (it : BatchItem) : Prop :=
  let c := it.command.collection
  ∃ ev, (ev, k) ∈ b.planned db c ∧
    ev ∈ ((b.ingestBatch.eval (serve srv) db).2 c).events.drop (db c).events.length

/-- The item is a no-op: it has neither failed nor come to an event. -/
def NoOp (k : Nat) (it : BatchItem) : Prop :=
  let c := it.command.collection
  b.planErrs db c k = none ∧ k ∉ (b.planned db c).map Prod.snd

/-- The report is right about every item. -/
structure Faithful : Prop where
  /-- An item reported as a success is stored, or was a no-op. -/
  succeeded : ∀ k it, b.items[k]? = some it →
    (b.ingestBatch.eval (serve srv) db).1[k]? = some none → b.Stored srv db k it ∨ b.NoOp db k it
  failed : ∀ k it e, b.items[k]? = some it →
    (b.ingestBatch.eval (serve srv) db).1[k]? = some (some e) → ¬ b.Stored srv db k it
  /-- No ticket is settled as failed whose event is stored. -/
  settled : ∀ k it err ticketID text, b.items[k]? = some it →
    (b.ingestBatch.eval (serve srv) db).1[k]? = some err →
    (settle ticketID text err).status = .failed → ¬ b.Stored srv db k it

variable {srv b db}

/-- An event comes from an item of the collection, which has not failed on the way. -/
theorem of_planned {c : String} {ev : Event} {k : Nat} (h : (ev, k) ∈ b.planned db c) :
    (∃ it, b.items[k]? = some it ∧ it.command.collection = c) ∧
      b.planErrs db c k = none := by
  have hstart : Fold.Within ((b.itemsOf c).map Prod.snd) (fun _ => none)
      (Fold.loaded {} (db c) (hasPreStore b.ing.pre (db c).config)) :=
    ⟨fun p hp => absurd hp not_mem_nil, fun _ _ => rfl⟩
  have hwithin := hstart.foldl b (db c).config c (b.itemsOf c) fun p hp => mem_map_of_mem hp
  have hnew : ∀ q ∈ b.itemsOf c,
      (Fold.loaded {} (db c) (hasPreStore b.ing.pre (db c).config)).errs q.2 = none ∧
        q.2 ∉ (Fold.loaded {} (db c) (hasPreStore b.ing.pre (db c).config)).events.map Prod.snd :=
    fun _ _ => ⟨rfl, not_mem_nil⟩
  have hmem : k ∈ (b.planned db c).map Prod.snd := mem_map_of_mem h
  obtain ⟨p, hp, rfl⟩ := mem_map.mp (hwithin.events _ h)
  obtain ⟨res, herr, hev⟩ :=
    Fold.Reports.exists_foldl b (db c).config c (b.positions_nodup c) hnew p hp
  exact ⟨⟨p.1, mem_itemsOf.mp hp⟩, herr.trans (hev.mp hmem).1⟩

private theorem events_upsertFinals (srv : Server) (c : String)
    (finals : String → Option CurrentState) (order : List String) (coll : Coll) :
    ((upsertFinals c finals order).eval (serveIn srv) coll).2.events = coll.events := by
  induction order generalizing coll with
  | nil => rfl
  | cons e order ih =>
    rw [upsertFinals]
    cases finals e with
    | none => exact ih coll
    | some st =>
      have hserve : (serveIn srv (.upsertCurrent c st) coll).2.events = coll.events := by
        simp [serveIn, serve, Db.upsert, Call.collection]
      exact (ih _).trans hserve

/-- What a batch reports, and what it stores. -/
theorem alone_report (srv : Server) (b : Batch) (db : Db) (c : String) :
    (b.alone srv c (db c)).2.events =
        (db c).events ++ ((b.planned db c).map Prod.fst).take (b.landed db c) ∧
      (b.landed db c = (b.planned db c).length → (b.alone srv c (db c)).1 = b.planErrs db c) ∧
      (b.landed db c ≠ (b.planned db c).length → ∃ e, (b.alone srv c (db c)).1 =
        failAll (b.planErrs db c) ((b.planned db c).map Prod.snd) e) := by
  rw [landed, planned, planErrs]
  generalize hst : b.folded c (db c) (fun _ => none) (b.itemsOf c) = st
  obtain ⟨hstore, hok⟩ := eval_insertMany srv c (st.events.map Prod.fst) (db c)
  rw [length_map] at hok
  have halone : b.alone srv c (db c) = (b.flush (db c).config c st).eval (serveIn srv) (db c) :=
    hst ▸ b.eval_batchCollection srv c (db c) fun _ => none
  rw [halone, eval_flush]
  split_ifs with hnil
  · have hn : (db c).inserted (st.events.map Prod.fst) = st.events.length := by
      simp [hnil, Coll.inserted]
    exact ⟨by simp [hnil], fun _ => rfl, fun hne => absurd hn hne⟩
  · dsimp only
    cases hres : ((insertMany c (st.events.map Prod.fst)).eval (serveIn srv) (db c)).1 with
    | ok u =>
      refine ⟨?_, fun _ => rfl, fun hne => absurd (hok.mp hres) hne⟩
      dsimp only
      rw [Prog.eval_bind, eval_buildSnapshots, (Coll.foldl_keep_frame _ _ _ _).2.1,
        events_upsertFinals, hstore]
    | error e =>
      refine ⟨by rw [hstore], fun hn => ?_, fun _ => ⟨_, rfl⟩⟩
      rw [hok.mpr hn] at hres
      cases hres

variable (srv b db)

/-- All events that the items of a collection have come to are inserted, or none. -/
def AllOrNone (c : String) : Prop :=
  b.landed db c = 0 ∨ b.landed db c = (b.planned db c).length

/-- The unique indexes let in all events that the items of the collection come to: these clash
neither with stored events nor with each other. -/
def Fits (c : String) : Prop :=
  (∀ ev ∈ (b.planned db c).map Prod.fst, (db c).Accepts ev) ∧
    ((b.planned db c).map Prod.fst).Pairwise fun x ev => ¬ x.Clashes ev

instance (c : String) : Decidable (b.Fits db c) := inferInstanceAs (Decidable (_ ∧ _))

/-- Already the first event that the items of the collection come to clashes with a stored one. -/
def Barred (c : String) : Prop :=
  ∃ ev ∈ ((b.planned db c).map Prod.fst).head?, ¬ (db c).Accepts ev

private theorem allOrNone_iff (c : String) : b.AllOrNone db c ↔ b.Fits db c ∨ b.Barred db c := by
  have hlen : (b.planned db c).length = ((b.planned db c).map Prod.fst).length := by
    rw [length_map]
  rw [AllOrNone, landed, hlen, Coll.inserted_eq_length_iff, Coll.inserted_eq_zero_iff, Fits, Barred]
  cases (b.planned db c).map Prod.fst with
  | nil => simp
  | cons ev evs => simp [or_comm]

private theorem stored_iff (k : Nat) (it : BatchItem) :
    let c := it.command.collection
    b.Stored srv db k it ↔ ∃ ev, (ev, k) ∈ b.planned db c ∧
      ev ∈ ((b.planned db c).map Prod.fst).take (b.landed db c) := by
  intro c
  rw [Stored, (b.eval_ingestBatch srv db).1]
  dsimp only
  rw [(alone_report srv b db it.command.collection).1, drop_left]

/-- A faithful report leaves no collection half written: the item of the first event would be
reported as failed. -/
theorem Faithful.allOrNone {srv : Server} {b : Batch} {db : Db} (hf : b.Faithful srv db)
    (c : String) : b.AllOrNone db c := by
  by_contra hpart
  rw [AllOrNone, not_or] at hpart
  obtain ⟨hne0, hnelen⟩ := hpart
  cases hevs : b.planned db c with
  | nil => simp [landed, hevs, Coll.inserted] at hne0
  | cons p evs =>
    have hmem : p ∈ b.planned db c := by simp [hevs]
    obtain ⟨⟨it, hit, rfl⟩, -⟩ := of_planned (b := b) (k := p.2) hmem
    obtain ⟨e, herr⟩ := (alone_report srv b db it.command.collection).2.2 hnelen
    have hvalue := (b.eval_ingestBatch srv db).2.2 p.2 it hit
    have hpos : p.2 ∈ (b.planned db it.command.collection).map Prod.snd := mem_map_of_mem hmem
    rw [herr, failAll, if_pos hpos] at hvalue
    refine hf.failed p.2 it e hit hvalue ((b.stored_iff srv db p.2 it).mpr ⟨p.1, hmem, ?_⟩)
    obtain ⟨n, hn⟩ := Nat.exists_eq_succ_of_ne_zero hne0
    rw [hn, hevs, map_cons, take_succ_cons]
    exact mem_cons_self

/-- An item reported as a success is stored or changes nothing, also where only a part of the
events has been inserted: an item whose event is not inserted is among those reported as failed. -/
theorem stored_or_noOp_of_success {k : Nat} {it : BatchItem} (hit : b.items[k]? = some it)
    (herr : (b.ingestBatch.eval (serve srv) db).1[k]? = some none) :
    b.Stored srv db k it ∨ b.NoOp db k it := by
  rw [(b.eval_ingestBatch srv db).2.2 k it hit, Option.some.injEq] at herr
  obtain ⟨-, hfull, hfail⟩ := alone_report srv b db it.command.collection
  by_cases hpos : k ∈ (b.planned db it.command.collection).map Prod.snd
  · obtain ⟨p, hp, rfl⟩ := mem_map.mp hpos
    by_cases hlen : b.landed db it.command.collection =
        (b.planned db it.command.collection).length
    · refine .inl ((b.stored_iff srv db p.2 it).mpr ⟨p.1, hp, ?_⟩)
      rw [hlen, take_of_length_le (by simp)]
      exact mem_map_of_mem hp
    · obtain ⟨e, hfail⟩ := hfail hlen
      rw [hfail, failAll, if_pos hpos] at herr
      cases herr
  · refine .inr ⟨?_, hpos⟩
    by_cases hlen : b.landed db it.command.collection =
        (b.planned db it.command.collection).length
    · rwa [hfull hlen] at herr
    · obtain ⟨e, hfail⟩ := hfail hlen
      rwa [hfail, failAll, if_neg hpos] at herr

private theorem faithful_of_allOrNone (hall : ∀ c, b.AllOrNone db c) : b.Faithful srv db := by
  have hfailed : ∀ k it e, b.items[k]? = some it →
      (b.ingestBatch.eval (serve srv) db).1[k]? = some (some e) → ¬ b.Stored srv db k it := by
    intro k it e hit herr hstored
    rw [(b.eval_ingestBatch srv db).2.2 k it hit, Option.some.injEq] at herr
    obtain ⟨ev, hev, htake⟩ := (b.stored_iff srv db k it).mp hstored
    rcases hall it.command.collection with hzero | hlen
    · rw [hzero] at htake
      exact absurd htake not_mem_nil
    · obtain ⟨-, hfull, -⟩ := alone_report srv b db it.command.collection
      rw [hfull hlen, (of_planned hev).2] at herr
      cases herr
  refine ⟨fun k it => b.stored_or_noOp_of_success srv db, hfailed,
    fun k it err ticketID text hit herr hstatus => ?_⟩
  cases err with
  | none => cases hstatus
  | some e => exact hfailed k it e hit herr

end Batch

/-- **What a batch reports.** The report is right about every item if and only if in each
collection the events that the items come to clash neither with stored events nor with each other,
or already the first one clashes with a stored one. -/
theorem batch_report_iff (srv : Server) (b : Batch) (db : Db) :
    b.Faithful srv db ↔ ∀ c, b.Fits db c ∨ b.Barred db c := by
  constructor
  · intro hf c
    exact (b.allOrNone_iff db c).mp (hf.allOrNone c)
  · intro h
    exact b.faithful_of_allOrNone srv db fun c => (b.allOrNone_iff db c).mpr (h c)

/-- A deal is won and stored; then another deal is won together with a repeat of an earlier event
id that would change the first one. Both are reported as failed, but the other deal is stored. -/
theorem batch_report_half_written :
    let lost : Write := ⟨{}, ⟨⟨1⟩, ⟨1⟩⟩, .state,
      { collection := "deals", entityID := "42", eventID := "k1", state := [("won", .bool false)] }⟩
    let db := (lost.prog.eval (serve .mongo) fun _ => {}).2
    let other : BatchItem := ⟨.state,
      { collection := "deals", entityID := "43", state := [("won", .bool true)] }⟩
    let again : BatchItem := ⟨.state,
      { collection := "deals", entityID := "42", eventID := "k1", state := [("won", .bool true)] }⟩
    let b : Batch := ⟨{}, fun _ => ⟨⟨2⟩, ⟨2⟩⟩, [other, again]⟩
    (b.ingestBatch.eval (serve .mongo) db).1.map Option.isSome = [true, true] ∧
      b.Stored .mongo db 0 other := by
  intro lost db other again b
  have hfirst : (b.planned db "deals")[0]?.map Prod.snd = some 0 := by decide +kernel
  have hone : b.landed db "deals" = 1 := by decide +kernel
  refine ⟨by decide +kernel, (b.stored_iff .mongo db 0 other).mpr ?_⟩
  obtain ⟨⟨ev, k⟩, hev, rfl⟩ := Option.map_eq_some_iff.mp hfirst
  refine ⟨ev, mem_of_getElem? hev, ?_⟩
  change ev ∈ ((b.planned db "deals").map Prod.fst).take (b.landed db "deals")
  rw [hone]
  exact mem_of_getElem? (i := 0) (by simp [hev])

end Letopis
