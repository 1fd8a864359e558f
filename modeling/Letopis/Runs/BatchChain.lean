import Letopis.Runs.BatchReads
import Letopis.Service.WriteAlone
import Letopis.Writers.Chain

/-!
# The hash chain of a batch under failing reads

The first item of an entity in a batch reads the current state of the entity and, for the hooks, its
last event. If the first read fails, the next item of the entity tries again. If the second one
fails, the entity counts as loaded all the same: later items find no last event, and the first of
them that comes to an event starts a new chain at the genesis, whatever is stored.

So an entity's chain is continued unless the read of its last event fails, the entity has stored
events, and an item of it that comes after comes to an event (`batch_chain_iff`).
-/

namespace Letopis

open Interleaving List Function

/-! ### Continued chains -/

namespace HashChain

/-- The hash that the event after the given one has to follow: that of the event, or the genesis if
there is none. -/
def tip (c : String) : Option Event → Option String
  | none => some (genesis c)
  | some ev => ev.integrity.map Integrity.hash

/-- The events continue the chain that ends in the given event. -/
def Continues (c : String) : Option Event → List Event → Prop
  | _, [] => True
  | last, ev :: evs => ev.integrity.map Integrity.prevHash = tip c last ∧ Continues c (some ev) evs

/-- The event carries a hash. -/
def Signed (ev : Event) : Prop := ∃ link, ev.integrity = some link ∧ link.hash ≠ ""

instance (ev : Event) : Decidable (Signed ev) :=
  decidable_of_iff (ev.integrity.any fun link => link.hash ≠ "")
    (by simp [Signed, Option.any_eq_true])

theorem Links.signed {prevHash : String} {ev : Event} (h : Links prevHash ev) : Signed ev :=
  ⟨_, h, digest_ne_empty _⟩

private theorem tip_eq {c : String} {last : Option Event} (h : ∀ ev, last = some ev → Signed ev) :
    tip c last = some (prevHashOf c last) := by
  cases last with
  | none => rfl
  | some ev =>
    obtain ⟨link, hlink, hne⟩ := h ev rfl
    simp [tip, prevHashOf, hlink, hne]

private theorem continues_concat {c : String} {last : Option Event} {evs : List Event}
    {ev : Event} : Continues c last (evs ++ [ev]) ↔ Continues c last evs ∧
      ev.integrity.map Integrity.prevHash = tip c (evs.getLast?.or last) := by
  induction evs generalizing last with
  | nil => simp [Continues]
  | cons x evs ih =>
    have hlast : (x :: evs).getLast?.or last = evs.getLast?.or (some x) := by
      cases evs with
      | nil => rfl
      | cons y evs => simp [getLast?_cons]
    rw [cons_append, Continues, Continues, ih, hlast, and_assoc]

end HashChain

/-! ### Where an entity stands -/

/-- The entity is loaded, and the events gathered for it continue the chain that ends in `start`. -/
structure Fold.ChainAt (st : Fold) (coll : Coll) (c e : String) (start : Option Event)
    (cur : Option CurrentState) : Prop where
  running : st.running e = some cur
  chain : HashChain.Continues c start (st.eventsOf e)
  signed : ∀ ev ∈ st.eventsOf e, HashChain.Signed ev
  last : st.lastEv e = (st.eventsOf e).getLast?.or start
  /-- As long as it has no event, it is where it was. -/
  base : st.eventsOf e = [] → cur = coll.current e

/-- How far an entity has come when the items `done` have had their turn. -/
inductive Fold.Phase (b : Batch) (coll : Coll) (c e : String) (done : List (BatchItem × Nat))
    (st : Fold) (seen : List (Obs Storage)) : Prop
  | unread (running : st.running e = none) (last : st.lastEv e = none)
      (events : st.eventsOf e = []) (misses : ¬ Misses seen c e)
      (tried : loads seen c e = (Batch.ofEntity e done).length)
  | read {cur : Option CurrentState} (misses : ¬ Misses seen c e)
      (chain : st.ChainAt coll c e (coll.last e) cur)
  /-- It is loaded, but the read of its last event has failed. -/
  | missed {cur : Option CurrentState} (misses : Misses seen c e)
      (tried : loads seen c e ≤ (Batch.ofEntity e done).length)
      (chain : st.ChainAt coll c e none cur)
      (events : st.eventsOf e ≠ [] ↔ ∃ p ∈ (Batch.ofEntity e done).drop (loads seen c e),
        ∃ x, b.outcome coll.config c none p.1 p.2 (coll.current e) = .ok (some x))

section

variable {b : Batch} {coll : Coll} {c e : String} {st : Fold} {it : BatchItem} {k : Nat}
  {cur : Option CurrentState}

private theorem Batch.planItem_other (he : it.command.entityID ≠ e) :
    let st' := b.planItem coll.config c st it k cur
    st'.running e = st.running e ∧ st'.lastEv e = st.lastEv e ∧ st'.eventsOf e = st.eventsOf e := by
  intro st'
  simp only [st', planItem_eq]
  rcases hout : b.outcome coll.config c (st.lastEv it.command.entityID) it k cur
    with err | (_ | ⟨ev, newState, deleted⟩)
  · exact ⟨rfl, rfl, rfl⟩
  · exact ⟨rfl, rfl, rfl⟩
  · have hev : ev.entityID ≠ e := by rwa [(outcome_event hout).1]
    refine ⟨update_of_ne he.symm _ _, ?_, ?_⟩
    · simp only [Fold.settle]
      split_ifs
      · exact update_of_ne he.symm _ _
      · rfl
    · simp [Fold.settle, Fold.push, Fold.eventsOf, hev]

/-- A batch whose events get their links from the plugin. -/
structure Batch.Signs (b : Batch) (coll : Coll) : Prop where
  enabled : (enabledConfig coll.config HashChain.plugin).isSome = true
  plugins : ∃ pre after, b.ing.pre = pre ++ HashChain.plugin :: after ∧
    ∀ p ∈ after, p.KeepsIntegrity

theorem Batch.Signs.hasPreStore (h : b.Signs coll) :
    hasPreStore b.ing.pre coll.config = true := by
  obtain ⟨pre, after, hpre, -⟩ := h.plugins
  rw [Letopis.hasPreStore, hpre]
  simp [h.enabled]

theorem Batch.Signs.links (h : b.Signs coll) {last : Option Event} {ev : Event} {newState : Fields}
    {deleted : Bool}
    (hout : b.outcome coll.config c last it k cur = .ok (some (ev, newState, deleted))) :
    HashChain.Links (HashChain.prevHashOf c last) ev := by
  obtain ⟨pre, after, hpre, hafter⟩ := h.plugins
  rw [outcome_eq] at hout
  split at hout
  · cases hout
  · cases hout
  · rw [if_pos h.hasPreStore, hpre] at hout
    cases hrun : runPreStore coll.config c ⟨last, cur⟩ (pre ++ HashChain.plugin :: after) _ with
    | error err =>
      rw [hrun] at hout
      cases hout
    | ok planned =>
      rw [hrun] at hout
      cases hout
      exact (HashChain.links_runPreStore h.enabled hafter hrun).of_eq rfl rfl

/-- **One item of a loaded entity.** -/
theorem Fold.ChainAt.planItem (hsigns : b.Signs coll) {start : Option Event}
    (hstart : ∀ ev, start = some ev → HashChain.Signed ev)
    (h : st.ChainAt coll c it.command.entityID start cur) :
    let st' := b.planItem coll.config c st it k cur
    (∃ cur', st'.ChainAt coll c it.command.entityID start cur') ∧
      (st'.eventsOf it.command.entityID ≠ [] ↔ st.eventsOf it.command.entityID ≠ [] ∨
        ∃ x, b.outcome coll.config c start it k (coll.current it.command.entityID) =
          .ok (some x)) := by
  intro st'
  set e := it.command.entityID
  -- without an event so far the item is planned from where the entity was
  have hfirst : st.eventsOf e = [] → b.outcome coll.config c (st.lastEv e) it k cur =
      b.outcome coll.config c start it k (coll.current e) := by
    intro hnil
    rw [h.last, h.base hnil, hnil]
    rfl
  have hst' : st' = st.settle k e true (b.outcome coll.config c (st.lastEv e) it k cur) := by
    rw [← hsigns.hasPreStore]
    exact b.planItem_eq ..
  have hidle : (∀ x, b.outcome coll.config c (st.lastEv e) it k cur ≠ .ok (some x)) →
      (st.eventsOf e ≠ [] ↔ st.eventsOf e ≠ [] ∨
        ∃ x, b.outcome coll.config c start it k (coll.current e) = .ok (some x)) := by
    refine fun hnone => ⟨.inl, fun hor => hor.elim id ?_⟩
    rintro ⟨x, hx⟩ hnil
    exact hnone x ((hfirst hnil).trans hx)
  rcases hout : b.outcome coll.config c (st.lastEv e) it k cur
    with err | (_ | ⟨ev, newState, deleted⟩)
  · rw [hst', hout]
    rw [hout] at hidle
    exact ⟨⟨cur, h.running, h.chain, h.signed, h.last, h.base⟩, hidle (by simp)⟩
  · rw [hst', hout]
    rw [hout] at hidle
    exact ⟨⟨cur, h⟩, hidle (by simp)⟩
  · have hent : ev.entityID = e := (Batch.outcome_event hout).1
    have hlinks := hsigns.links hout
    have hevents : st'.eventsOf e = st.eventsOf e ++ [ev] := by
      rw [hst', hout]
      simp [Fold.settle, Fold.push, Fold.eventsOf, hent]
    have hlastSigned : ∀ x, st.lastEv e = some x → HashChain.Signed x := by
      intro x hx
      rw [h.last, Option.or_eq_some_iff] at hx
      rcases hx with hx | ⟨-, hx⟩
      · exact h.signed x (mem_of_getLast? hx)
      · exact hstart x hx
    refine ⟨⟨some ⟨e, ev.version, ev.tsReceived, deleted, newState⟩, ?_, ?_, ?_, ?_, ?_⟩, ?_⟩
    · rw [hst', hout]
      exact update_self ..
    · rw [hevents, HashChain.continues_concat, ← h.last, HashChain.tip_eq hlastSigned]
      exact ⟨h.chain, by rw [hlinks]; rfl⟩
    · rw [hevents, forall_mem_append, forall_mem_singleton]
      exact ⟨h.signed, hlinks.signed⟩
    · rw [hevents, getLast?_concat, hst', hout]
      exact update_self ..
    · rw [hevents]
      simp
    · rw [hevents]
      refine iff_of_true (by simp) ?_
      by_cases hnil : st.eventsOf e = []
      · exact .inr ⟨_, (hfirst hnil).symm.trans hout⟩
      · exact .inl hnil

namespace Fold.Phase

variable {done : List (BatchItem × Nat)} {seen : List (Obs Storage)}

variable {seen' : List (Obs Storage)}

theorem congr (h : st.Phase b coll c e done seen) {st' : Fold} {done' : List (BatchItem × Nat)}
    (hst : st'.running e = st.running e ∧ st'.lastEv e = st.lastEv e ∧
      st'.eventsOf e = st.eventsOf e) (hseen : SameReads c e seen seen')
    (hdone : Batch.ofEntity e done' = Batch.ofEntity e done) :
    st'.Phase b coll c e done' seen' := by
  obtain ⟨hrunning, hlast, hevents⟩ := hst
  have hchain : ∀ {start cur}, st.ChainAt coll c e start cur → st'.ChainAt coll c e start cur := by
    intro start cur h
    refine ⟨hrunning.trans h.running, ?_, ?_, ?_, ?_⟩
    · exact hevents ▸ h.chain
    · exact hevents ▸ h.signed
    · rw [hlast, hevents, h.last]
    · exact hevents ▸ h.base
  cases h with
  | unread running last events misses tried =>
    refine .unread (hrunning.trans running) (hlast.trans last) (hevents.trans events) ?_ ?_
    · rwa [hseen.misses]
    · rw [hseen.loads, tried, hdone]
  | read misses chain => exact .read (by rwa [hseen.misses]) (hchain chain)
  | missed misses tried chain events =>
    refine .missed (hseen.misses.mpr misses) ?_ (hchain chain) ?_
    · rwa [hseen.loads, hdone]
    · rwa [hseen.loads, hdone, hevents]

theorem planItem (hsigns : b.Signs coll)
    (hstored : ∀ ev, coll.last it.command.entityID = some ev → HashChain.Signed ev)
    (h : st.Phase b coll c it.command.entityID done seen)
    (hrun : st.running it.command.entityID = some cur) :
    (b.planItem coll.config c st it k cur).Phase b coll c it.command.entityID (done ++ [(it, k)])
      seen := by
  have hdone : Batch.ofEntity it.command.entityID (done ++ [(it, k)]) =
      Batch.ofEntity it.command.entityID done ++ [(it, k)] := by
    simp [Batch.ofEntity]
  cases h with
  | unread running => rw [running] at hrun; cases hrun
  | read misses chain =>
    rw [chain.running] at hrun
    cases hrun
    obtain ⟨⟨cur', hchain⟩, -⟩ := chain.planItem (k := k) hsigns hstored
    exact .read misses hchain
  | missed misses tried chain events =>
    rw [chain.running] at hrun
    cases hrun
    obtain ⟨⟨cur', hchain⟩, hevents⟩ := chain.planItem (k := k) hsigns (by simp)
    refine .missed misses ?_ hchain ?_
    · rw [hdone, length_append]
      exact tried.trans (Nat.le_add_right _ _)
    · rw [hevents, events, hdone, drop_append_of_le_length tried]
      simp only [mem_append, mem_singleton, or_and_right, exists_or, exists_eq_left]

theorem of_running_eq_none (h : st.Phase b coll c e done seen) (hrun : st.running e = none) :
    st.lastEv e = none ∧ st.eventsOf e = [] ∧ ¬ Misses seen c e ∧
      loads seen c e = (Batch.ofEntity e done).length := by
  cases h with
  | unread running last events misses tried => exact ⟨last, events, misses, tried⟩
  | read misses chain =>
    rw [chain.running] at hrun
    cases hrun
  | missed misses tried chain =>
    rw [chain.running] at hrun
    cases hrun

theorem step_own (hsigns : b.Signs coll)
    (hstored : ∀ ev, coll.last it.command.entityID = some ev → HashChain.Signed ev) {st' : Fold}
    (h : st.Phase b coll c it.command.entityID done seen)
    (hreads : b.Reads coll c st it k seen st' seen') :
    st'.Phase b coll c it.command.entityID (done ++ [(it, k)]) seen' := by
  have hdone : (Batch.ofEntity it.command.entityID (done ++ [(it, k)])).length =
      (Batch.ofEntity it.command.entityID done).length + 1 := by
    simp [Batch.ofEntity]
  cases hreads with
  | again running => exact h.planItem hsigns hstored running
  | unread running =>
    obtain ⟨hlast, hevents, hmisses, htried⟩ := h.of_running_eq_none running
    refine .unread running hlast hevents ?_ ?_
    · simpa [Misses, Saw] using hmisses
    · rw [loads_cons_getCurrent, htried, hdone]
  | missed running =>
    obtain ⟨hlast, hevents, -, htried⟩ := h.of_running_eq_none running
    have hloads : ∀ r r', loads (⟨.lastEvent c it.command.entityID, r⟩ ::
        ⟨.getCurrent c it.command.entityID, r'⟩ :: seen) c it.command.entityID =
        (Batch.ofEntity it.command.entityID (done ++ [(it, k)])).length := by
      intro r r'
      rw [loads_cons_lastEvent, loads_cons_getCurrent, htried, hdone]
    refine .missed mem_cons_self (hloads _ _).le
      ⟨update_self .., ?_, ?_, ?_, fun _ => rfl⟩ ?_
    · exact hevents ▸ trivial
    · exact hevents ▸ by simp
    · exact hevents ▸ hlast
    · rw [hloads, drop_length]
      exact iff_of_false (fun hne => hne hevents) (by simp)
  | first running read =>
    obtain ⟨hlast, hevents, hmisses, htried⟩ := h.of_running_eq_none running
    have hchain : ((st.load coll it.command.entityID).loadLast coll it.command.entityID).ChainAt
        coll c it.command.entityID (coll.last it.command.entityID)
        (coll.current it.command.entityID) := by
      refine ⟨update_self .., ?_, ?_, ?_, fun _ => rfl⟩
      · exact hevents ▸ trivial
      · exact hevents ▸ by simp
      · exact (update_self ..).trans (hevents ▸ rfl)
    obtain ⟨⟨cur', hchain'⟩, -⟩ := hchain.planItem (k := k) hsigns hstored
    refine .read ?_ hchain'
    simpa [Misses, Saw, read.symm] using hmisses

/-- **One item.** Whatever reads fail, every entity moves on by what the item means for it. -/
theorem step (hsigns : b.Signs coll) (hstored : ∀ ev, coll.last e = some ev → HashChain.Signed ev)
    {st' : Fold} (h : st.Phase b coll c e done seen)
    (hreads : b.Reads coll c st it k seen st' seen') :
    st'.Phase b coll c e (done ++ [(it, k)]) seen' := by
  by_cases he : it.command.entityID = e
  · subst he
    exact h.step_own hsigns hstored hreads
  · have hdone : Batch.ofEntity e (done ++ [(it, k)]) = Batch.ofEntity e done := by
      simp [Batch.ofEntity, he]
    cases hreads with
    | again => exact h.congr (Batch.planItem_other he) (.refl c e seen) hdone
    | unread running =>
      exact h.congr ⟨rfl, rfl, rfl⟩ ((SameReads.refl c e seen).cons ⟨by simp [he], by simp⟩ _) hdone
    | missed running =>
      refine h.congr ⟨update_of_ne (Ne.symm he) _ _, rfl, rfl⟩ ?_ hdone
      exact ((SameReads.refl c e seen).cons ⟨by simp [he], by simp⟩ _).cons
        ⟨by simp, by simp [he]⟩ _
    | first running read =>
      refine h.congr ?_ ?_ hdone
      · exact And.imp (fun h₁ => h₁.trans (update_of_ne (Ne.symm he) _ _))
          (And.imp_left fun h₂ => h₂.trans (update_of_ne (Ne.symm he) _ _))
          (Batch.planItem_other he)
      · exact ((SameReads.refl c e seen).cons ⟨by simp [he], by simp⟩ _).cons
          ⟨by simp, by simp [he]⟩ _

end Fold.Phase

end

/-! ### A collection -/

/-- The chain of the entity is broken by a failed read: that of its last event fails, the entity
has one whose hash is not the genesis, and an item that comes after the one that read it comes to an
event. -/
def Batch.Orphans (b : Batch) (coll : Coll) (seen : List (Obs Storage)) (c e : String) : Prop :=
  Misses seen c e ∧ HashChain.prevHashOf c (coll.last e) ≠ HashChain.genesis c ∧
    ∃ p ∈ (ofEntity e (b.itemsOf c)).drop (loads seen c e),
      ∃ x, b.outcome coll.config c none p.1 p.2 (coll.current e) = .ok (some x)

theorem SameReads.orphans_iff {b : Batch} {coll : Coll} {c e : String}
    {seen seen' : List (Obs Storage)} (h : SameReads c e seen seen') :
    b.Orphans coll seen' c e ↔ b.Orphans coll seen c e := by
  rw [Batch.Orphans, Batch.Orphans, h.misses, h.loads]

/-- The events that the fold has gathered for an entity continue its chain, unless a failed read
has broken it. -/
theorem Fold.Phase.continues_iff {b : Batch} {coll : Coll} {c e : String} {st : Fold}
    {seen : List (Obs Storage)} (hstored : ∀ ev, coll.last e = some ev → HashChain.Signed ev)
    (h : st.Phase b coll c e (b.itemsOf c) seen) :
    HashChain.Continues c (coll.last e) (st.eventsOf e) ↔ ¬ b.Orphans coll seen c e := by
  cases h with
  | unread running last events misses tried =>
    rw [events]
    exact iff_of_true trivial fun h => misses h.1
  | read misses chain => exact iff_of_true chain.chain fun h => misses h.1
  | missed misses tried chain events =>
    have hchain := chain.chain
    rw [Batch.Orphans, ← events]
    cases hevs : st.eventsOf e with
    | nil => simp [HashChain.Continues]
    | cons ev evs =>
      rw [hevs, HashChain.Continues] at hchain
      rw [HashChain.Continues, hchain.1, HashChain.tip_eq hstored]
      simp [misses, hchain.2, HashChain.tip, eq_comm]

namespace Batch

variable (srv : Server) {b : Batch} {c e : String}

variable {seen : List (Obs Storage)}

private theorem foldItems_wp {db : Db} (hsigns : b.Signs (db c))
    (hstored : ∀ ev, (db c).last e = some ev → HashChain.Signed ev) (items : List (BatchItem × Nat))
    {done : List (BatchItem × Nat)} {st : Fold} (h : st.Phase b (db c) c e done seen) :
    Wp (handle srv) ReadFaults (fun st' seen' db' => db' = db ∧
      st'.Phase b (db c) c e (done ++ items) seen') (b.foldItems (db c).config c items st) seen
      db := by
  induction items generalizing done st seen with
  | nil => exact ⟨rfl, by rwa [append_nil]⟩
  | cons p items ih =>
    refine Wp.bind_iff.mpr ((foldItem_wp srv hsigns.hasPreStore st p.1 p.2 seen).mono ?_)
    rintro st' seen' db' ⟨rfl, hreads⟩
    have hstep := ih (h.step hsigns hstored hreads)
    rwa [append_assoc, singleton_append] at hstep

/-- What a batch leaves of the chain of an entity in the collection: an insertion has failed, or
events are added that continue it unless a failed read has broken it. -/
def Leaves (b : Batch) (coll : Coll) (c e : String) (seen : List (Obs Storage)) (db : Db) : Prop :=
  Refused seen c ∨
    ∃ evs, db.hist c e = (coll.events.filter fun ev => ev.entityID = e) ++ evs ∧
      (HashChain.Continues c (coll.last e) evs ↔ ¬ b.Orphans coll seen c e)

private theorem batchCollection_wp {db : Db} (hsigns : b.Signs (db c))
    (hstored : ∀ ev, (db c).last e = some ev → HashChain.Signed ev) (hloads : loads seen c e = 0)
    (hmisses : ¬ Misses seen c e) (errs : Nat → Option IngestErr) :
    Wp (handle srv) ReadFaults (fun _ => b.Leaves (db c) c e) (b.batchCollection c errs) seen
      db := by
  refine Wp.ask_bind_iff.mpr fun f hf => ?_
  have hnone : f = .none := by
    by_contra hne
    cases hf hne
  subst hnone
  have hsame : SameReads c e seen (⟨.ensureCollection c, .ok (db c).config⟩ :: seen) :=
    (SameReads.refl c e seen).cons ⟨by simp, by simp⟩ _
  have hstart : Fold.Phase b (db c) c e [] { errs } (⟨.ensureCollection c, .ok (db c).config⟩ ::
      seen) :=
    .unread rfl rfl rfl (by rwa [hsame.misses]) (hsame.loads.trans hloads)
  refine Wp.bind_iff.mpr ((foldItems_wp srv hsigns hstored (b.itemsOf c) hstart).mono ?_)
  rintro st seen₁ db₁ ⟨rfl, hphase⟩
  refine (b.flush_wp srv _ c e st db₁ seen₁).mono ?_
  rintro - seen₂ db₂ ⟨hreads, hres⟩
  refine hres.imp_right fun hhist => ⟨st.eventsOf e, hhist, ?_⟩
  rw [hreads.orphans_iff]
  exact hphase.continues_iff hstored

private theorem batchCollections_wp {order : List String} (hnodup : order.Nodup) (hc : c ∈ order)
    {db : Db}
    (hsigns : b.Signs (db c)) (hstored : ∀ ev, (db c).last e = some ev → HashChain.Signed ev)
    (hloads : loads seen c e = 0) (hmisses : ¬ Misses seen c e) (errs : Nat → Option IngestErr) :
    Wp (handle srv) ReadFaults (fun _ => b.Leaves (db c) c e) (b.batchCollections order errs) seen
      db := by
  induction order generalizing errs seen db with
  | nil => exact absurd hc not_mem_nil
  | cons c' order ih =>
    obtain ⟨hnot, hnodup⟩ := nodup_cons.mp hnodup
    by_cases hcc : c' = c
    · subst hcc
      refine Wp.bind_iff.mpr
        ((batchCollection_wp srv hsigns hstored hloads hmisses errs).mono ?_)
      intro errs' seen₁ db₁ hleaves
      refine (batchCollections_other_wp srv e hnot errs' seen₁ db₁).mono ?_
      rintro - seen₂ db₂ ⟨hreads, hsame⟩
      refine hleaves.imp (·.mono hreads.mono) ?_
      rintro ⟨evs, hhist, hiff⟩
      refine ⟨evs, ?_, hiff.trans (not_congr hreads.orphans_iff.symm)⟩
      rw [Db.hist, hsame]
      exact hhist
    · refine Wp.bind_iff.mpr ((batchCollection_other_wp srv hcc e errs seen db).mono ?_)
      rintro errs' seen₁ db₁ ⟨hreads, hsame⟩
      rw [← hsame] at hsigns hstored ⊢
      exact ih hnodup ((mem_cons.mp hc).resolve_left (Ne.symm hcc)) hsigns hstored
        (hreads.loads.trans hloads) (by rwa [hreads.misses]) errs'

end Batch

/-- **The chain of a batch under failing reads.** Whatever reads of entities fail while a batch
runs alone, provided that its events are inserted: the events it adds for an entity whose
history is signed continue the entity's chain if and only if no failed read breaks it. -/
theorem batch_chain_iff (srv : Server) (b : Batch) (db : Db)
    (oracle : List (Obs Storage) → Call → Fault)
    (hfaults : ∀ seen call, ReadFaults call (oracle seen call)) {c e : String}
    (hsigns : b.Signs (db c)) (hstored : ∀ ev ∈ db.hist c e, HashChain.Signed ev) :
    let o := b.ingestBatch.exec (handle srv) oracle [] db
    ¬ Refused o.seen c →
    ∃ evs, o.store.hist c e = db.hist c e ++ evs ∧
      (HashChain.Continues c ((db c).last e) evs ↔ ¬ b.Orphans (db c) o.seen c e) := by
  intro o hins
  have hlast : ∀ ev, (db c).last e = some ev → HashChain.Signed ev :=
    fun ev hev => hstored ev (argmax_mem hev)
  have hleaves : b.Leaves (db c) c e o.seen o.store := by
    refine Wp.exec (Q := fun _ => b.Leaves (db c) c e) hfaults (Wp.bind_iff.mpr ?_)
    by_cases hc : c ∈ b.order
    · exact Batch.batchCollections_wp srv (nodup_eraseDups _) hc hsigns hlast rfl
        not_mem_nil _
    · -- there are no items for the collection
      refine (Batch.batchCollections_other_wp srv e hc _ [] db).mono ?_
      rintro - seen db' ⟨-, hsame⟩
      refine .inr ⟨[], by rw [Db.hist, hsame, append_nil], iff_of_true trivial ?_⟩
      rintro ⟨-, -, p, hp, -⟩
      rw [Batch.itemsOf_of_not_mem hc] at hp
      simp [Batch.ofEntity] at hp
  exact hleaves.resolve_left hins

/-- The fold of two writes to a deal that is stored already. The read of its current state fails for
the first one, and the second one continues the chain. -/
theorem batch_chain_iff_retried :
    let item (won : Bool) : BatchItem := ⟨.state, { collection := "deals", entityID := "42",
                                                    state := [("won", .bool won)] }⟩
    let b : Batch := ⟨{ pre := [HashChain.plugin] }, fun _ => ⟨⟨2⟩, ⟨2⟩⟩, [item true, item false]⟩
    let db : Db := ((Write.signed "deals" "42" [("won", .null)]).prog.eval (serve .mongo)
      fun _ => signedColl).2
    let oracle : List (Obs Storage) → Call → Fault := fun seen call =>
      match call with
      | .getCurrent _ _ => if seen.length = 1 then .before else .none
      | _ => .none
    let o := b.ingestBatch.exec (handle .mongo) oracle [] db
    o.value = [some (.store .failed), none] ∧
      ∃ evs, o.store.hist "deals" "42" = db.hist "deals" "42" ++ evs ∧
        HashChain.Continues "deals" ((db "deals").last "42") evs := by
  intro item b db oracle o
  have hfaults : ∀ seen call, ReadFaults call (oracle seen call) := by
    intro seen call hne
    cases call with
    | getCurrent | lastEvent => rfl
    | _ => exact absurd rfl hne
  have hmisses : ¬ Misses o.seen "deals" "42" := by decide +kernel
  have hsigns : b.Signs (db "deals") := ⟨by decide +kernel, [], [], by rfl, by simp⟩
  obtain ⟨evs, hhist, hiff⟩ := batch_chain_iff .mongo b db oracle hfaults (e := "42") hsigns
    (by decide +kernel) (by decide +kernel)
  exact ⟨by decide +kernel, evs, hhist, hiff.mpr fun h => hmisses h.1⟩

/-- The same two writes, where the read of the last event fails for the first one. The second one is
stored, and starts a new chain. -/
theorem missed_last_event_forks :
    let item (won : Bool) : BatchItem := ⟨.state, { collection := "deals", entityID := "42",
                                                    state := [("won", .bool won)] }⟩
    let b : Batch := ⟨{ pre := [HashChain.plugin] }, fun _ => ⟨⟨2⟩, ⟨2⟩⟩, [item true, item false]⟩
    let db : Db := ((Write.signed "deals" "42" [("won", .null)]).prog.eval (serve .mongo)
      fun _ => signedColl).2
    let o := b.ingestBatch.exec (handle .mongo) (fun _ call =>
      match call with
      | .lastEvent _ _ => .before
      | _ => .none) [] db
    o.value = [some (.store .failed), none] ∧
      ((o.store.hist "deals" "42").map fun ev => ev.integrity.map Integrity.prevHash) =
        [some (HashChain.genesis "deals"), some (HashChain.genesis "deals")] ∧
      ((db.hist "deals" "42").map fun ev => ev.integrity.map Integrity.hash) ≠
        [some (HashChain.genesis "deals")] := by
  intro item b db o
  refine ⟨?_, ?_, ?_⟩ <;> decide +kernel

end Letopis
