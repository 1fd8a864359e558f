import Letopis.Service.BatchAlone
import Letopis.Service.Sequential

/-!
# A batch under failing reads

A batch that runs alone, where the reads of entities may fail and no other call does. The first item
of an entity reads the current state of the entity and, for the hooks, its last event. If the first
read fails, the next item of the entity tries again. If the second one fails, the entity counts as
loaded all the same, with no last event (`Batch.Reads`). What has been gathered is then inserted
(`Batch.flush_wp`), one collection after the other.
-/

namespace Letopis

open Interleaving List

/-! ### Reads that fail -/

/-- The call reads an entity. -/
def Call.readsEntity : Call → Bool
  | .getCurrent _ _ | .lastEvent _ _ => true
  | _ => false

/-- Only reads of entities fail. -/
def ReadFaults (call : Call) (f : Fault) : Prop := f ≠ .none → call.readsEntity = true

/-- The observation is an attempt to load the entity. -/
def isLoad (c e : String) : Obs Storage → Bool
  | ⟨.getCurrent c' e', _⟩ => c' = c ∧ e' = e
  | _ => false

/-- The number of attempts to load the entity. -/
def loads (seen : List (Obs Storage)) (c e : String) : Nat := seen.countP (isLoad c e)

/-- The read of the last event of the entity has failed. -/
def Misses (seen : List (Obs Storage)) (c e : String) : Prop :=
  Saw seen (.lastEvent c e) (.error .failed)

/-- The observation is a failed read of the last event of the entity. -/
def isMiss (c e : String) : Obs Storage → Bool
  | ⟨.lastEvent c' e', .error .failed⟩ => c' = c ∧ e' = e
  | _ => false

variable {seen : List (Obs Storage)}

private theorem misses_iff {c e : String} : Misses seen c e ↔ seen.any (isMiss c e) = true := by
  rw [any_eq_true]
  constructor
  · exact fun h => ⟨_, h, by simp [isMiss]⟩
  · rintro ⟨o, ho, hmiss⟩
    unfold isMiss at hmiss
    split at hmiss
    · obtain ⟨rfl, rfl⟩ := of_decide_eq_true hmiss
      exact ho
    · cases hmiss

instance (seen : List (Obs Storage)) (c e : String) : Decidable (Misses seen c e) :=
  decidable_of_iff _ misses_iff.symm

theorem loads_cons_getCurrent (seen : List (Obs Storage)) (c e : String)
    (r : Except StoreErr CurrentState) :
    loads (⟨.getCurrent c e, r⟩ :: seen) c e = loads seen c e + 1 := by
  simp [loads, isLoad]

theorem loads_cons_lastEvent (seen : List (Obs Storage)) (c e : String)
    (r : Except StoreErr Event) :
    loads (⟨.lastEvent c e, r⟩ :: seen) c e = loads seen c e := by
  simp [loads, isLoad]

/-- An insertion into the collection has failed. -/
def Refused (seen : List (Obs Storage)) (c : String) : Prop :=
  ∃ ev err, Saw seen (.insertEvent c ev) (.error err)

theorem Refused.mono {seen' : List (Obs Storage)} {c : String} (h : Refused seen c)
    (hs : seen ⊆ seen') : Refused seen' c := by
  obtain ⟨ev, err, hsaw⟩ := h
  exact ⟨ev, err, hsaw.mono hs⟩

/-- The observation is a failed insertion. -/
def isRefusal (c : String) : Obs Storage → Bool
  | ⟨.insertEvent c' _, .error _⟩ => c' = c
  | _ => false

private theorem refused_iff {c : String} : Refused seen c ↔ seen.any (isRefusal c) = true := by
  rw [any_eq_true]
  constructor
  · rintro ⟨ev, err, h⟩
    exact ⟨_, h, by simp [isRefusal]⟩
  · rintro ⟨o, ho, hrefusal⟩
    unfold isRefusal at hrefusal
    split at hrefusal
    · obtain rfl := of_decide_eq_true hrefusal
      exact ⟨_, _, ho⟩
    · cases hrefusal

instance (seen : List (Obs Storage)) (c : String) : Decidable (Refused seen c) :=
  decidable_of_iff _ refused_iff.symm

/-- The second program has seen what the first one has, and no more reads of the entity. -/
structure SameReads (c e : String) (seen seen' : List (Obs Storage)) : Prop where
  loads : loads seen' c e = loads seen c e
  misses : Misses seen' c e ↔ Misses seen c e
  mono : seen ⊆ seen'

namespace SameReads

variable {c e : String} {seen seen' : List (Obs Storage)}

theorem refl (c e : String) (seen : List (Obs Storage)) : SameReads c e seen seen :=
  ⟨rfl, Iff.rfl, List.Subset.refl _⟩

theorem trans {seen'' : List (Obs Storage)} (h : SameReads c e seen seen')
    (h' : SameReads c e seen' seen'') : SameReads c e seen seen'' :=
  ⟨h'.loads.trans h.loads, h'.misses.trans h.misses, List.Subset.trans h.mono h'.mono⟩

theorem cons (h : SameReads c e seen seen') {call : Call}
    (hcall : call ≠ .getCurrent c e ∧ call ≠ .lastEvent c e) (r : Except StoreErr call.Value) :
    SameReads c e seen (⟨call, r⟩ :: seen') := by
  refine ⟨?_, ?_, subset_cons_of_subset _ h.mono⟩
  · have hload : isLoad c e ⟨call, r⟩ = false := by
      cases call with
      | getCurrent c' e' =>
        simp only [isLoad, decide_eq_false_iff_not]
        rintro ⟨rfl, rfl⟩
        exact hcall.1 rfl
      | _ => rfl
    rw [Letopis.loads, countP_cons_of_neg (by simp [hload])]
    exact h.loads
  · rw [← h.misses, Misses, Misses, Saw, mem_cons, or_iff_right]
    · rfl
    · intro heq
      exact hcall.2 (congrArg Sigma.fst heq).symm

end SameReads

/-! ### One item -/

/-- The events of an entity that the fold has gathered. -/
def Fold.eventsOf (st : Fold) (e : String) : List Event :=
  (st.events.map Prod.fst).filter fun ev => ev.entityID = e

/-- The current state of an entity is loaded. -/
def Fold.load (st : Fold) (coll : Coll) (e : String) : Fold :=
  { st with running := Function.update st.running e (some (coll.current e)) }

/-- The last event of an entity is loaded. -/
def Fold.loadLast (st : Fold) (coll : Coll) (e : String) : Fold :=
  { st with lastEv := Function.update st.lastEv e (coll.last e) }

namespace Batch

/-- The items of an entity. -/
def ofEntity (e : String) (items : List (BatchItem × Nat)) : List (BatchItem × Nat) :=
  items.filter fun p => p.1.command.entityID = e

variable (b : Batch) (coll : Coll) (c : String)

/-- What becomes of an item where reads may fail: the fold it leads to and what has been seen by
then. -/
inductive Reads (st : Fold) (it : BatchItem) (k : Nat) (seen : List (Obs Storage)) :
    Fold → List (Obs Storage) → Prop
  | again {cur : Option CurrentState} (running : st.running it.command.entityID = some cur) :
      Reads st it k seen (b.planItem coll.config c st it k cur) seen
  | unread {err : IngestErr} (running : st.running it.command.entityID = none) :
      Reads st it k seen (st.fail k err)
        (⟨.getCurrent c it.command.entityID, .error .failed⟩ :: seen)
  /-- The current state is read, the last event cannot be. -/
  | missed {err : IngestErr} {r : Except StoreErr CurrentState}
      (running : st.running it.command.entityID = none) :
      Reads st it k seen ((st.load coll it.command.entityID).fail k err)
        (⟨.lastEvent c it.command.entityID, .error .failed⟩ ::
          ⟨.getCurrent c it.command.entityID, r⟩ :: seen)
  | first {r : Except StoreErr CurrentState} {r' : Except StoreErr Event}
      (running : st.running it.command.entityID = none) (read : r' ≠ .error .failed) :
      Reads st it k seen (b.planItem coll.config c ((st.load coll it.command.entityID).loadLast coll
          it.command.entityID) it k (coll.current it.command.entityID))
        (⟨.lastEvent c it.command.entityID, r'⟩ :: ⟨.getCurrent c it.command.entityID, r⟩ :: seen)

end Batch

private theorem load_wp (srv : Server) (c e : String) (db : Db) (seen : List (Obs Storage)) :
    Wp (handle srv) ReadFaults (fun r seen' db' => db' = db ∧
      ((∃ err, r = .error err) ∧ seen' = ⟨.getCurrent c e, .error .failed⟩ :: seen ∨
        r = .ok ((db c).current e) ∧ ∃ r', seen' = ⟨.getCurrent c e, r'⟩ :: seen))
      (load c e) seen db := by
  refine read_wp rfl ?_ fun f _ _ => ⟨rfl, .inl ⟨⟨_, rfl⟩, rfl⟩⟩
  dsimp only [serve]
  cases (db c).current e with
  | none => exact ⟨rfl, .inr ⟨rfl, _, rfl⟩⟩
  | some st => exact ⟨rfl, .inr ⟨rfl, _, rfl⟩⟩

private theorem lastEvent_wp (srv : Server) (c e : String) (db : Db) (seen : List (Obs Storage)) :
    Wp (handle srv) ReadFaults (fun r seen' db' => db' = db ∧
      ((∃ err, r = .error err) ∧ seen' = ⟨.lastEvent c e, .error .failed⟩ :: seen ∨
        r = .ok ((db c).last e) ∧ ∃ r', r' ≠ .error .failed ∧
          seen' = ⟨.lastEvent c e, r'⟩ :: seen)) (lastEvent c e) seen db := by
  refine read_wp rfl ?_ fun f _ _ => ⟨rfl, .inl ⟨⟨_, rfl⟩, rfl⟩⟩
  have hserve : (serve srv (.lastEvent c e) db).1 = orNotFound ((db c).last e) := rfl
  rw [hserve]
  cases (db c).last e with
  | none => exact ⟨rfl, .inr ⟨rfl, _, by simp [orNotFound], rfl⟩⟩
  | some st => exact ⟨rfl, .inr ⟨rfl, _, by simp [orNotFound], rfl⟩⟩

namespace Batch

variable {b : Batch} {c : String} {db : Db}

theorem foldItem_wp (srv : Server) (hpre : hasPreStore b.ing.pre (db c).config = true) (st : Fold)
    (it : BatchItem) (k : Nat) (seen : List (Obs Storage)) :
    Wp (handle srv) ReadFaults (fun st' seen' db' => db' = db ∧
      b.Reads (db c) c st it k seen st' seen') (b.foldItem (db c).config c st it k) seen db := by
  rw [foldItem]
  cases hrun : st.running it.command.entityID with
  | some cur => exact ⟨rfl, .again hrun⟩
  | none =>
    refine Wp.bind_iff.mpr ((load_wp srv c it.command.entityID db seen).mono ?_)
    rintro r seen' db' ⟨rfl, ⟨⟨err, rfl⟩, rfl⟩ | ⟨rfl, r', rfl⟩⟩
    · exact ⟨rfl, .unread hrun⟩
    · simp only [hpre, if_true]
      refine Wp.bind_iff.mpr ((lastEvent_wp srv c it.command.entityID db' _).mono ?_)
      rintro r seen' db ⟨rfl, ⟨⟨err, rfl⟩, rfl⟩ | ⟨rfl, r', hr', rfl⟩⟩
      · exact ⟨rfl, .missed hrun⟩
      · exact ⟨rfl, .first hrun hr'⟩

end Batch

/-! ### What is written -/

private theorem handle_other (srv : Server) {call : Call} {f : Fault} {db : Db} {c : String}
    (hc : call.collection ≠ c) : (handle srv call f db).2 c = db c := by
  have hserve : (serve srv call db).2 c = db c := by
    rw [serve_eq_serveIn]
    exact Function.update_of_ne hc.symm _ _
  cases f with
  | none => exact hserve
  | before => rfl
  | after => exact hserve

namespace Batch

variable (srv : Server) {b : Batch} {c e : String}

private theorem insertMany_wp (c e : String) (evs : List Event) (db : Db)
    (seen : List (Obs Storage)) :
    Wp (handle srv) ReadFaults (fun r seen' db' => SameReads c e seen seen' ∧
      (Refused seen' c ∨ r = .ok () ∧
        db'.hist c e = db.hist c e ++ evs.filter fun ev => ev.entityID = e))
      (insertMany c evs) seen db := by
  induction evs generalizing db seen with
  | nil => exact ⟨.refl c e seen, .inr ⟨rfl, by simp⟩⟩
  | cons ev evs ih =>
    refine Wp.ask_bind_iff.mpr fun f hf => ?_
    have hsame : ∀ r, SameReads c e seen (⟨.insertEvent c ev, r⟩ :: seen) :=
      (SameReads.refl c e seen).cons ⟨by simp, by simp⟩
    cases hr : (handle srv (.insertEvent c ev) f db).1 with
    | error err => exact ⟨hsame _, .inl ⟨ev, err, mem_cons_self⟩⟩
    | ok u =>
      rw [(insertEvent_ok hr).2.2.2]
      refine (ih _ _).mono ?_
      rintro r seen' db' ⟨hreads, hres⟩
      refine ⟨(hsame _).trans hreads, hres.imp_right ?_⟩
      rintro ⟨rfl, hhist⟩
      refine ⟨rfl, ?_⟩
      rw [hhist, Db.hist_append]
      by_cases he : ev.entityID = e
      · simp [he]
      · simp [he]

variable (b) in
/-- What a fold has gathered is added to the history, unless an insertion fails. -/
theorem flush_wp (cfg : CollectionConfig) (c e : String) (st : Fold) (db : Db)
    (seen : List (Obs Storage)) :
    Wp (handle srv) ReadFaults (fun _ seen' db' => SameReads c e seen seen' ∧
      (Refused seen' c ∨
        db'.hist c e = db.hist c e ++ st.eventsOf e)) (b.flush cfg c st) seen db := by
  rw [flush]
  split_ifs with hnil
  · exact ⟨.refl c e seen, .inr (by simp [Fold.eventsOf, hnil])⟩
  · refine Wp.bind_iff.mpr ((insertMany_wp srv c e _ db seen).mono ?_)
    rintro r seen₁ db₁ ⟨hreads, hres⟩
    -- refreshes and snapshots leave the history alone
    have hquiet : ∀ (call : Call) f seen₂ db₂, call.readsEntity = false ∧ call.isInsert = false →
        ReadFaults call f → SameReads c e seen₁ seen₂ ∧ db₂.hist c e = db₁.hist c e →
        SameReads c e seen₁ (⟨call, (handle srv call f db₂).1⟩ :: seen₂) ∧
          (handle srv call f db₂).2.hist c e = db₁.hist c e := by
      rintro call f seen₂ db₂ ⟨hread, hins⟩ - ⟨hsame, hhist⟩
      refine ⟨hsame.cons ⟨?_, ?_⟩ _, ?_⟩
      · rintro rfl
        cases hread
      · rintro rfl
        cases hread
      · rcases hist_handle srv call f db₂ c e with heq | ⟨ev, rfl, -⟩
        · rw [heq, hhist]
        · cases hins
    cases r with
    | error err =>
      refine ⟨hreads, hres.imp_right ?_⟩
      rintro ⟨hr, -⟩
      cases hr
    | ok u =>
      refine Wp.bind_iff.mpr (((calls_upsertFinals (fun _ => ⟨rfl, rfl⟩) _ _).wp hquiet
        ⟨.refl c e seen₁, rfl⟩).mono ?_)
      rintro - seen₂ db₂ hkept₂
      refine Wp.bind_iff.mpr (((b.calls_buildSnapshots cfg (fun _ => ⟨rfl, rfl⟩) _).wp hquiet
        hkept₂).mono ?_)
      rintro - seen₃ db₃ ⟨hreads₃, hhist₃⟩
      refine ⟨hreads.trans hreads₃, hres.imp (·.mono hreads₃.mono) ?_⟩
      rintro ⟨-, hhist⟩
      rw [hhist₃, hhist]
      rfl

theorem batchCollection_other_wp {c' : String} (hc : c' ≠ c) (e : String)
    (errs : Nat → Option IngestErr) (seen : List (Obs Storage)) (db : Db) :
    Wp (handle srv) ReadFaults (fun _ seen' db' => SameReads c e seen seen' ∧ db' c = db c)
      (b.batchCollection c' errs) seen db := by
  refine (b.calls_batchCollection c' errs).wp ?_ ⟨.refl c e seen, rfl⟩
  rintro call f seen' db' rfl - ⟨hreads, hsame⟩
  refine ⟨hreads.cons ⟨?_, ?_⟩ _, (handle_other srv hc).trans hsame⟩
  · rintro rfl
    exact hc rfl
  · rintro rfl
    exact hc rfl

theorem batchCollections_other_wp (e : String) {order : List String} (hc : c ∉ order)
    (errs : Nat → Option IngestErr) (seen : List (Obs Storage)) (db : Db) :
    Wp (handle srv) ReadFaults (fun _ seen' db' => SameReads c e seen seen' ∧ db' c = db c)
      (b.batchCollections order errs) seen db := by
  induction order generalizing errs seen db with
  | nil => exact ⟨.refl c e seen, rfl⟩
  | cons c' order ih =>
    rw [mem_cons, not_or] at hc
    refine Wp.bind_iff.mpr ((batchCollection_other_wp srv (Ne.symm hc.1) e errs seen db).mono ?_)
    rintro errs' seen₁ db₁ ⟨hreads, hsame⟩
    refine (ih hc.2 errs' seen₁ db₁).mono ?_
    rintro - seen₂ db₂ ⟨hreads₂, hsame₂⟩
    exact ⟨hreads.trans hreads₂, hsame₂.trans hsame⟩

end Batch

end Letopis
