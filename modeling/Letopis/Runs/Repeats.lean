import Letopis.Service.Sequential
import Letopis.Service.WriteAlone

/-!
# Repeated commands

A command with an event id that is already stored is submitted again. The unique index on event
ids is asked last: the optimistic lock, the plan and the hooks of the command come before it and
see the entity as it is by now. And only the path of single writes knows what to make of the
index's refusal; in a batch it fails every item of the collection that came to an event.
-/

namespace Letopis

open Interleaving List

/-- An event with the id is stored in the collection. -/
def Db.HasEventID (db : Db) (c id : String) : Prop :=
  id ≠ "" ∧ ∃ x ∈ (db c).events, x.eventID = id

instance (db : Db) (c id : String) : Decidable (db.HasEventID c id) :=
  inferInstanceAs (Decidable (_ ∧ ∃ x ∈ (db c).events, _))

theorem Db.HasEventID.not_free {db : Db} {c id : String} (h : db.HasEventID c id) {ev : Event}
    (hev : ev.eventID = id) : ¬ db.EventIDFree c ev := by
  obtain ⟨hne, x, hx, hxid⟩ := h
  rintro (hempty | hfree)
  · exact hne (hev ▸ hempty)
  · exact hfree x hx (hxid.trans hev.symm)

/-! ### Single writes -/

namespace Write

variable (srv : Server) (db : Db) (w : Write)

/-- The repeat finds nothing to do, or gets as far as the index: the lock lets it pass, its plan
succeeds, and if the plan is an event, the hooks let it pass and the refusal is understood. -/
def passes : Bool :=
  versionMatches w.cmd.expectedVersion (db.curVersion w.coll w.eid) &&
    match planEvent w.now.received (db w.coll).config w.kind w.cmd ((db w.coll).current w.eid) with
    | .error _ => false
    | .ok .noChange => true
    | .ok (.write planned _ _) =>
      match w.hooked db planned with
      | .error _ => false
      | .ok ev => !srv.Confuses w.coll (w.next db ev)

private theorem passes_eq : w.passes srv db =
    match w.decision db with
    | .error _ => false
    | .ok none => true
    | .ok (some (ev, _, _)) => !srv.Confuses w.coll (w.next db ev) := by
  rw [passes, decision, Db.curVersion]
  cases hlock : versionMatches w.cmd.expectedVersion (baseState ((db w.coll).current w.eid)).2 with
  | false => simp
  | true =>
    rw [if_neg (by simp)]
    rcases planEvent w.now.received (db w.coll).config w.kind w.cmd ((db w.coll).current w.eid)
      with e | (_ | ⟨planned, newState, deleted⟩)
    · rfl
    · rfl
    · dsimp only
      cases w.hooked db planned <;> rfl

/-- **A repeated command** succeeds and leaves the store alone if and only if it passes. -/
theorem repeat_iff (htaken : db.HasEventID w.coll w.cmd.eventID) :
    let o := w.prog.exec (handle srv) (fun _ _ => .none) [] db
    (o.store = db ∧ ∃ res, o.value = .ok res ∧ (res.deduplicated = true ∨ res.noChanges = true)) ↔
      w.passes srv db = true := by
  intro o
  have heff : w.Effect srv Faultless db o.value o.seen o.store := w.effect_faultless srv db
  rw [passes_eq]
  generalize o = o at heff ⊢
  obtain ⟨value, seen, db'⟩ := o
  dsimp only at heff ⊢
  -- the event that is planned carries the id of the command, so the index refuses it
  have htaken' : ∀ {ev newState deleted}, w.decision db = .ok (some (ev, newState, deleted)) →
      ¬ db.EventIDFree w.coll (w.next db ev) := by
    intro ev newState deleted hdec
    obtain ⟨-, -, -, -, hid⟩ := decision_event hdec
    exact htaken.not_free hid
  cases heff with
  | failed hfault =>
    obtain ⟨call, f, hf, hne⟩ := hfault
    exact absurd hf hne
  | undecided hdec => simp [hdec]
  | noChange hdec => simp [hdec]
  | @duplicate ev newState deleted seen hdec =>
    cases hconf : srv.Confuses w.coll (w.next db ev) with
    | true => simp [hdec, hconf]
    | false => simp [hdec, hconf]
  | lost hdec hfree => exact absurd hfree (htaken' hdec)
  | stale hdec hfree => exact absurd hfree (htaken' hdec)
  | stored hdec hfree => exact absurd hfree (htaken' hdec)

end Write

/-! ### Batches -/

namespace Batch

/-- The position of an item after one at position `k` is put in. -/
def skip (k i : Nat) : Nat := if i < k then i else i + 1

private theorem skip_injective (k : Nat) : Function.Injective (skip k) := by
  intro i j h
  unfold skip at h
  split_ifs at h <;> omega

private theorem skip_ne (k i : Nat) : skip k i ≠ k := by
  unfold skip
  split_ifs <;> omega

variable (srv : Server) (b : Batch) (k : Nat)

/-- The batch without the item at a position. -/
def without : Batch :=
  { b with items := b.items.eraseIdx k, now := fun i => b.now (skip k i) }

/-- The state that the entity of an item has reached in the batch before the item's turn. -/
def reached (it : BatchItem) (coll : Coll) : Option CurrentState :=
  let before : Batch := { b with items := b.items.take k }
  ((before.folded it.command.collection coll (fun _ => none)
    (before.itemsOf it.command.collection)).running it.command.entityID).join

variable {b k}

variable {it : BatchItem}

private theorem zipIdx_eq (hit : b.items[k]? = some it) :
    b.items.zipIdx = (b.items.take k).zipIdx ++
      (it, k) :: (((b.items.drop (k + 1)).zipIdx k).map fun p => (p.1, skip k p.2)) := by
  obtain ⟨hk, rfl⟩ := List.getElem?_eq_some_iff.mp hit
  have hlen : (b.items.take k).length = k := length_take_of_le hk.le
  have hsplit : b.items = b.items.take k ++ b.items[k] :: b.items.drop (k + 1) := by
    rw [← drop_eq_getElem_cons hk, take_append_drop]
  have hshift : (((b.items.drop (k + 1)).zipIdx k).map fun p => (p.1, skip k p.2)) =
      (b.items.drop (k + 1)).zipIdx (k + 1) := by
    rw [zipIdx_succ]
    refine map_congr_left fun p hp => ?_
    have hle : k ≤ p.2 := le_snd_of_mem_zipIdx hp
    simp [skip, hle]
  conv_lhs => rw [hsplit]
  rw [zipIdx_append, hlen, hshift, Nat.zero_add, zipIdx_cons]

private theorem zipIdx_without (hk : k < b.items.length) : (b.without k).items.zipIdx =
      (b.items.take k).zipIdx ++ (b.items.drop (k + 1)).zipIdx k := by
  rw [without, eraseIdx_eq_take_drop_succ, zipIdx_append, length_take_of_le hk.le]
  simp

private theorem map_skip_of_lt {l : List (BatchItem × Nat)} (h : ∀ p ∈ l, p.2 < k) :
    (l.map fun p => (p.1, skip k p.2)) = l := by
  refine (map_congr_left fun p hp => ?_).trans (map_id _)
  simp [skip, h p hp]

private theorem itemsOf_eq (hit : b.items[k]? = some it) (c : String) :
    ∃ pre post, Batch.itemsOf { b with items := b.items.take k } c = pre ∧
      (b.without k).itemsOf c = pre ++ post ∧
      b.itemsOf c = pre ++ (if it.command.collection = c then [(it, k)] else []) ++
        post.map (fun p => (p.1, skip k p.2)) ∧
      pre.map (fun p => (p.1, skip k p.2)) = pre := by
  have hk : k < b.items.length := (List.getElem?_eq_some_iff.mp hit).1
  refine ⟨_, ((b.items.drop (k + 1)).zipIdx k).filter fun p => p.1.command.collection = c, rfl,
    ?_, ?_, ?_⟩
  · rw [itemsOf, zipIdx_without hk, filter_append]
    rfl
  · rw [itemsOf, zipIdx_eq hit, filter_append, filter_cons, filter_map,
      append_assoc]
    simp only [decide_eq_true_eq]
    split_ifs <;> rfl
  · refine map_skip_of_lt fun p hp => ?_
    exact (snd_lt_of_mem_zipIdx (mem_of_mem_filter hp)).trans_le
      (length_take_le _ _)

/-- The item comes to nothing when its turn comes. -/
def idle (b : Batch) (k : Nat) (it : BatchItem) (coll : Coll) : Bool :=
  match planEvent (b.now k).received coll.config it.kind it.command (b.reached k it coll) with
  | .ok .noChange => true
  | _ => false

private theorem idle_iff {coll : Coll} : b.idle k it coll = true ↔
    planEvent (b.now k).received coll.config it.kind it.command (b.reached k it coll) =
      .ok .noChange := by
  rw [idle]
  rcases planEvent (b.now k).received coll.config it.kind it.command (b.reached k it coll)
    with e | (_ | ⟨planned, newState, deleted⟩) <;> simp

private theorem planItem_of_noChange {cfg : CollectionConfig} {c : String} {st : Fold}
    {cur : Option CurrentState}
    (h : planEvent (b.now k).received cfg it.kind it.command cur = .ok .noChange) :
    b.planItem cfg c st it k cur = st := by
  rw [planItem, h]

/-- **An item that comes to nothing** might as well not be there. -/
theorem alone_without (hit : b.items[k]? = some it) (c : String) (coll : Coll)
    (hidle : it.command.collection = c → b.idle k it coll = true) :
    (b.alone srv c coll).2 = ((b.without k).alone srv c coll).2 ∧
      (b.alone srv c coll).1 k = none ∧
      ∀ i, (b.alone srv c coll).1 (skip k i) = ((b.without k).alone srv c coll).1 i := by
  obtain ⟨pre, post, hbefore, hwithout, hitems, hpre⟩ := itemsOf_eq hit c
  -- the fold passes over the item
  have hfold : b.folded c coll (fun _ => none) (b.itemsOf c) =
      ((pre ++ post).map fun p => (p.1, skip k p.2)).foldl (b.step coll.config c)
        (Fold.loaded {} coll (hasPreStore b.ing.pre coll.config)) := by
    rw [folded, hitems, map_append, hpre, foldl_append, foldl_append,
      foldl_append]
    congr 1
    split_ifs with hc
    · subst hc
      have hplan := idle_iff.mp (hidle rfl)
      rw [reached, hbefore] at hplan
      exact planItem_of_noChange hplan
    · rfl
  -- the shorter batch makes the same fold under its own positions
  have hstart : Fold.Renames (skip k) (fun _ => True)
      (Fold.loaded {} coll (hasPreStore b.ing.pre coll.config))
      (Fold.loaded {} coll (hasPreStore b.ing.pre coll.config)) :=
    ⟨rfl, rfl, rfl, rfl, rfl, rfl, fun _ _ => rfl⟩
  have hing : (b.without k).ing = b.ing := rfl
  have hren := hstart.foldl (skip_injective k) hing (fun _ => rfl) coll.config c (pre ++ post)
  have hnone : Fold.Within (((pre ++ post).map fun p => (p.1, skip k p.2)).map Prod.snd)
      (fun _ => none) (Fold.loaded {} coll (hasPreStore b.ing.pre coll.config)) :=
    ⟨fun p hp => absurd hp not_mem_nil, fun _ _ => rfl⟩
  have hwithin := hnone.foldl b coll.config c _ fun p hp => mem_map_of_mem hp
  rw [← hfold] at hren hwithin
  rw [← hwithout] at hren
  rw [alone, alone, eval_batchCollection, eval_batchCollection]
  have hflush := hren.eval_flush (skip_injective k) hing srv coll.config c coll
  refine ⟨hflush.1, hwithin.eval_flush srv b coll.config c coll fun hmem => ?_,
    fun i => hflush.2 i trivial⟩
  obtain ⟨q, hq, hqk⟩ := mem_map.mp hmem
  obtain ⟨p, -, rfl⟩ := mem_map.mp hq
  exact skip_ne k p.2 hqk

end Batch

/-- The item at the position has failed, or has come to an event that is as `P` says. -/
def Fold.Records (k : Nat) (P : Event → Prop) (st : Fold) : Prop :=
  st.errs k ≠ none ∨ ∃ ev, (ev, k) ∈ st.events ∧ P ev

namespace Fold.Records

variable {k : Nat} {P : Event → Prop} {st : Fold}

theorem settle (h : st.Records k P) (i : Nat) (eid : String) (chained : Bool)
    (o : Except IngestErr (Option (Event × Fields × Bool))) :
    (st.settle i eid chained o).Records k P := by
  rcases o with e | (_ | ⟨ev, newState, deleted⟩)
  · refine h.imp_left fun herr => ?_
    by_cases hik : k = i
    · subst hik
      simp [Fold.settle, Fold.fail]
    · simpa [Fold.settle, Fold.fail, Function.update_of_ne hik] using herr
  · exact h
  · refine h.imp_right ?_
    rintro ⟨x, hx, hP⟩
    exact ⟨x, mem_append_left _ hx, hP⟩

theorem self {eid : String} {chained : Bool}
    {o : Except IngestErr (Option (Event × Fields × Bool))} (hne : o ≠ .ok none)
    (hP : ∀ ev newState deleted, o = .ok (some (ev, newState, deleted)) → P ev) :
    (st.settle k eid chained o).Records k P := by
  rcases o with e | (_ | ⟨ev, newState, deleted⟩)
  · exact .inl (by simp [Fold.settle, Fold.fail])
  · exact absurd rfl hne
  · exact .inr ⟨ev, mem_append_right _ mem_cons_self, hP ev newState deleted rfl⟩

theorem foldl (h : st.Records k P) (b : Batch) (cfg : CollectionConfig) (c : String)
    (items : List (BatchItem × Nat)) : (items.foldl (b.step cfg c) st).Records k P := by
  induction items generalizing st with
  | nil => exact h
  | cons p items ih =>
    refine ih ?_
    rw [Batch.step, Batch.planItem_eq]
    exact h.settle ..

end Fold.Records

namespace Batch

variable {b : Batch} {k : Nat} (srv : Server) (c : String)

private theorem eventIDFree_of_insertMany {evs : List Event} {coll : Coll}
    (h : ((insertMany c evs).eval (serveIn srv) coll).1 = .ok ()) :
    ∀ ev ∈ evs, Db.EventIDFree (fun _ => coll) c ev := by
  induction evs generalizing coll with
  | nil => exact fun ev hev => absurd hev not_mem_nil
  | cons ev evs ih =>
    rw [insertMany, Prog.eval_bind, Prog.eval_ask] at h
    by_cases hv : Db.VersionFree (fun _ => coll) c ev
    · by_cases hi : Db.EventIDFree (fun _ => coll) c ev
      · have hserve : serveIn srv (.insertEvent c ev) coll =
            (.ok (), { coll with events := coll.events ++ [ev] }) := by
          simp [serveIn, serve, hv, hi, Call.collection, Db.append]
        rw [hserve] at h
        refine forall_mem_cons.mpr ⟨hi, fun x hx => (ih h x hx).imp_right fun hfree y hy => ?_⟩
        exact hfree y (mem_append_left _ hy)
      · have hserve : (serveIn srv (.insertEvent c ev) coll).1 =
            .error (.dupKey (srv.dupText c .eventID ev)) := by simp [serveIn, serve, hv, hi]
        rw [hserve] at h
        cases h
    · have hserve : (serveIn srv (.insertEvent c ev) coll).1 =
          .error (.dupKey (srv.dupText c .eventVersion ev)) := by simp [serveIn, serve, hv]
      rw [hserve] at h
      cases h

private theorem eval_flush_records {st : Fold} {cfg : CollectionConfig} {coll : Coll}
    (h : st.Records k fun ev => ¬ Db.EventIDFree (fun _ => coll) c ev) :
    ((b.flush cfg c st).eval (serveIn srv) coll).1 k ≠ none := by
  rw [eval_flush]
  rcases h with herr | ⟨ev, hev, htaken⟩
  · split_ifs
    · exact herr
    · dsimp only
      split
      · dsimp only [failAll]
        split_ifs
        · simp
        · exact herr
      · exact herr
  · rw [if_neg (ne_nil_of_mem hev)]
    dsimp only
    split
    · dsimp only [failAll]
      rw [if_pos (mem_map_of_mem hev)]
      simp
    · next hok =>
      exact absurd (eventIDFree_of_insertMany srv c hok ev (mem_map_of_mem hev)) htaken

variable {c} {cfg : CollectionConfig} {last : Option Event} {it : BatchItem}
  {cur : Option CurrentState}

private theorem outcome_none (h : b.outcome cfg c last it k cur = .ok none) :
    planEvent (b.now k).received cfg it.kind it.command cur = .ok .noChange := by
  rw [outcome] at h
  split at h
  · cases h
  · next hplan => exact hplan
  · dsimp only at h
    split_ifs at h
    · split at h <;> cases h
    · cases h

/-- **A repeat that comes to something** is reported as failed. -/
theorem alone_ne_none (hit : b.items[k]? = some it) {db : Db}
    (htaken : db.HasEventID it.command.collection it.command.eventID)
    (hidle : ¬ b.idle k it (db it.command.collection) = true) :
    (b.alone srv it.command.collection (db it.command.collection)).1 k ≠ none := by
  obtain ⟨pre, post, hbefore, -, hitems, -⟩ := itemsOf_eq hit it.command.collection
  rw [alone, eval_batchCollection, folded, hitems, if_pos rfl, foldl_append,
    foldl_append, foldl_cons, foldl_nil]
  refine eval_flush_records srv _ (Fold.Records.foldl ?_ ..)
  rw [step, planItem_eq]
  refine Fold.Records.self (fun hnone => hidle ?_) fun ev newState deleted hsome => ?_
  · rw [idle_iff, reached, hbefore]
    exact outcome_none hnone
  · exact htaken.not_free (outcome_event hsome).2.1

private theorem getElem?_without (i : Nat) : (b.without k).items[i]? = b.items[skip k i]? := by
  rw [without, getElem?_eraseIdx, skip]
  split_ifs <;> rfl

/-- **A repeat in a batch** is reported as a success, and the rest of the batch does what it does
without it, if and only if the repeat comes to nothing when its turn comes. -/
theorem repeat_iff (hit : b.items[k]? = some it) {db : Db}
    (htaken : db.HasEventID it.command.collection it.command.eventID) :
    let o := b.ingestBatch.exec (handle srv) (fun _ _ => .none) [] db
    let o' := (b.without k).ingestBatch.exec (handle srv) (fun _ _ => .none) [] db
    (o.value[k]? = some none ∧ o.store = o'.store ∧ o.value.eraseIdx k = o'.value) ↔
      b.idle k it (db it.command.collection) = true := by
  have hexec : ∀ b : Batch,
      (b.ingestBatch.exec (handle srv) (fun _ _ => .none) [] db).value =
          (b.ingestBatch.eval (serve srv) db).1 ∧
        (b.ingestBatch.exec (handle srv) (fun _ _ => .none) [] db).store =
          (b.ingestBatch.eval (serve srv) db).2 := fun b => Prog.exec_const
  intro o o'
  obtain ⟨hstore, hlen, hvalue⟩ := eval_ingestBatch srv b db
  obtain ⟨hstore', hlen', hvalue'⟩ := eval_ingestBatch srv (b.without k) db
  rw [(hexec b).1, (hexec b).2, (hexec (b.without k)).1, (hexec (b.without k)).2]
  constructor
  · rintro ⟨hk, -⟩
    by_contra hidle
    rw [hvalue k it hit] at hk
    exact alone_ne_none srv hit htaken hidle (Option.some.inj hk)
  · intro hidle
    -- each collection does what it does without the item
    have hsame : ∀ c, _ := fun c => alone_without srv hit c (db c) fun hc => hc ▸ hidle
    refine ⟨?_, ?_, ext_getElem? fun i => ?_⟩
    · rw [hvalue k it hit, (hsame _).2.1]
    · rw [hstore, hstore']
      exact funext fun c => (hsame c).1
    · have hget : ((b.ingestBatch.eval (serve srv) db).1.eraseIdx k)[i]? =
          (b.ingestBatch.eval (serve srv) db).1[skip k i]? := by
        rw [getElem?_eraseIdx, skip]
        split_ifs <;> rfl
      rw [hget]
      cases hi : b.items[skip k i]? with
      | some it' =>
        rw [hvalue _ it' hi, hvalue' i it' (by rw [getElem?_without, hi]), (hsame _).2.2 i]
      | none =>
        have hi' : (b.without k).items[i]? = none := by rw [getElem?_without, hi]
        rw [List.getElem?_eq_none_iff] at hi hi'
        rw [getElem?_eq_none (by omega), getElem?_eq_none (by omega)]

end Batch

/-! ### Both paths -/

/-- **Repeats are absorbed** where they pass. A command with an event id that is stored already
succeeds without a trace if and only if it finds nothing to do or gets as far as the index; in a
batch it is reported as a success, with no consequences for the other items, if and only if it
finds nothing to do. -/
theorem repeats_absorbed_iff (srv : Server) (db : Db) :
    (∀ w : Write, db.HasEventID w.coll w.cmd.eventID →
      let o := w.prog.exec (handle srv) (fun _ _ => .none) [] db
      ((o.store = db ∧
          ∃ res, o.value = .ok res ∧ (res.deduplicated = true ∨ res.noChanges = true)) ↔
        w.passes srv db = true)) ∧
    ∀ (b : Batch) (k : Nat) (it : BatchItem), b.items[k]? = some it →
      db.HasEventID it.command.collection it.command.eventID →
      let o := b.ingestBatch.exec (handle srv) (fun _ _ => .none) [] db
      let o' := (b.without k).ingestBatch.exec (handle srv) (fun _ _ => .none) [] db
      ((o.value[k]? = some none ∧ o.store = o'.store ∧ o.value.eraseIdx k = o'.value) ↔
        b.idle k it (db it.command.collection) = true) :=
  ⟨fun w htaken => w.repeat_iff srv db htaken,
    fun _ _ _ hit htaken => Batch.repeat_iff srv hit htaken⟩

/-- A `State` write that carries an event id. -/
def Write.ofStateWithID (c e id : String) (state : Fields) : Write :=
  { Write.ofState c e state with
    cmd := { collection := c, entityID := e, state, eventID := id } }

/-- A deal is lost, then won. The first write comes again: by now it would change the deal, and
the index makes it a repeat. The second one comes again in a batch, and finds nothing to do. -/
theorem repeats_absorbed_retry :
    let lost : Write := .ofStateWithID "deals" "42" "k1" [("won", .bool false)]
    let won : Write := .ofStateWithID "deals" "42" "k2" [("won", .bool true)]
    let db := ((Session.mk [] fun _ => {}).run (handle .mongo)
      [(lost.prog, fun _ _ => .none), (won.prog, fun _ _ => .none)]).store
    let again : BatchItem := ⟨.state, won.cmd⟩
    let b : Batch := ⟨{}, fun _ => ⟨⟨1⟩, ⟨1⟩⟩, [again,
      ⟨.state, { collection := "deals", entityID := "43", state := [("won", .bool true)] }⟩]⟩
    (∃ res, (lost.prog.exec (handle .mongo) (fun _ _ => .none) [] db).value = .ok res ∧
      (res.deduplicated = true ∨ res.noChanges = true)) ∧
    (b.ingestBatch.exec (handle .mongo) (fun _ _ => .none) [] db).value[0]? = some none := by
  intro lost won db again b
  obtain ⟨hwrite, hbatch⟩ := repeats_absorbed_iff .mongo db
  have hpasses : lost.passes .mongo db = true := by decide +kernel
  have hidle : b.idle 0 again (db again.command.collection) = true := by decide +kernel
  have hlost := (hwrite lost (by decide +kernel)).mpr hpasses
  have hwon := (hbatch b 0 again rfl (by decide +kernel)).mpr hidle
  exact ⟨hlost.2, hwon.1⟩

/-- A write under a lock that comes again finds its lock out of date. A write that comes again in
a batch, when it would change the deal, fails and takes the other item of the batch with it. -/
theorem repeats_rejected :
    let locked : Write := { Write.ofState "deals" "42" [("won", .bool false)] with
      cmd := { collection := "deals", entityID := "42", state := [("won", .bool false)],
               eventID := "k1", expectedVersion := some 0 } }
    let won : Write := .ofStateWithID "deals" "42" "k2" [("won", .bool true)]
    let first := (Session.mk [] fun _ => {}).run (handle .mongo) [(locked.prog, fun _ _ => .none)]
    let second := first.run (handle .mongo) [(won.prog, fun _ _ => .none)]
    let b : Batch := ⟨{}, fun _ => ⟨⟨1⟩, ⟨1⟩⟩, [⟨.state, locked.cmd⟩,
      ⟨.state, { collection := "deals", entityID := "43", state := [("won", .bool true)] }⟩]⟩
    let o := b.ingestBatch.exec (handle .mongo) (fun _ _ => .none) [] second.store
    first.store.HasEventID "deals" "k1" ∧
    (locked.prog.exec (handle .mongo) (fun _ _ => .none) [] first.store).value =
      .error .versionConflict ∧
    o.value.map Option.isSome = [true, true] ∧ o.store.hist "deals" "43" = [] := by
  decide

end Letopis
