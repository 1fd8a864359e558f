import Letopis.Plugin.HashChain
import Letopis.Writers.Versions

/-!
# The hash chain under concurrent writers

A writer computes its link from the last event it has read, before it appends; the append takes
the next free version, and when it loses the race for one it takes a later one with the link as
it was. Two writers that have read the same last event both link to it, whatever versions they
end up with.

The chain is linear in every run in which each event goes in right behind the event its writer
has linked it to (`Write.LinksLast`), whatever else happens, storage failures included.
-/

namespace Letopis

open Interleaving List

/-! ### What the hooks leave on an event -/

/-- The plugin leaves the integrity block alone. -/
def PreStorePlugin.KeepsIntegrity (p : PreStorePlugin) : Prop :=
  ∀ draft prev, ∀ edit ∈ (p.preStore draft prev).1, ∀ h ph, edit ≠ .setIntegrity h ph

section

variable {cfg : CollectionConfig} {c : String} {prev : EntityView} {ev ev' : Event}

private theorem runPreStore_append {pre after : List PreStorePlugin}
    (h : runPreStore cfg c prev (pre ++ after) ev = .ok ev') :
    ∃ x, runPreStore cfg c prev pre ev = .ok x ∧ runPreStore cfg c prev after x = .ok ev' := by
  induction pre generalizing ev with
  | nil => exact ⟨ev, rfl, h⟩
  | cons p pre ih =>
    simp only [cons_append, runPreStore] at h ⊢
    split at h
    · exact ih h
    · split at h
      · exact ih h
      · split_ifs at h ⊢ with hmode
        exact ih h

private theorem integrity_perform (ev : Event) {edits : List DraftEdit}
    (h : ∀ edit ∈ edits, ∀ h ph, edit ≠ .setIntegrity h ph) :
    (edits.foldl DraftEdit.perform ev).integrity = ev.integrity := by
  induction edits generalizing ev with
  | nil => rfl
  | cons edit edits ih =>
    rw [foldl_cons, ih _ fun e he => h e (mem_cons_of_mem _ he)]
    cases edit with
    | setIntegrity hash prevHash => exact absurd rfl (h _ mem_cons_self _ _)
    | putMeta key value => rfl

private theorem integrity_runPreStore {pre : List PreStorePlugin}
    (hpre : ∀ p ∈ pre, p.KeepsIntegrity)
    (h : runPreStore cfg c prev pre ev = .ok ev') : ev'.integrity = ev.integrity := by
  induction pre generalizing ev with
  | nil =>
    cases h
    rfl
  | cons p pre ih =>
    have hkeep := integrity_perform ev (hpre p mem_cons_self (newDraft c ev) prev)
    have ih' : ∀ {x : Event}, runPreStore cfg c prev pre x = .ok ev' →
        ev'.integrity = x.integrity := ih fun q hq => hpre q (mem_cons_of_mem _ hq)
    simp only [runPreStore] at h
    split at h
    · exact ih' h
    · split at h
      · exact (ih' h).trans hkeep
      · split_ifs at h
        exact (ih' h).trans hkeep

end

namespace HashChain

/-- The event carries the link that follows the given hash. -/
def Links (prevHash : String) (ev : Event) : Prop :=
  ev.integrity = some ⟨hash prevHash (projectionFromEvent ev), prevHash⟩

theorem Links.of_eq {prevHash : String} {ev ev' : Event} (h : Links prevHash ev)
    (hproj : projectionFromEvent ev' = projectionFromEvent ev)
    (hint : ev'.integrity = ev.integrity) : Links prevHash ev' := by
  rw [Links, hint, h, hproj]

private theorem projectionFromEvent_annotates {ev ev' : Event} (h : ev.Annotates ev') :
    projectionFromEvent ev' = projectionFromEvent ev := by
  obtain ⟨m, i, rfl⟩ := h
  rfl

theorem digest_ne_empty (message : List UInt8) : digest message ≠ "" := by
  intro h
  have hlist := congrArg String.toList h
  simp [digest, hashScheme] at hlist

/-- With the plugin enabled and nobody after it who sets the integrity block, what comes out of
the hooks is linked to the last event. -/
theorem links_runPreStore {cfg : CollectionConfig} {c : String} {prev : EntityView}
    {pre after : List PreStorePlugin} {ev ev' : Event}
    (henabled : (enabledConfig cfg plugin).isSome = true) (hafter : ∀ p ∈ after, p.KeepsIntegrity)
    (h : runPreStore cfg c prev (pre ++ plugin :: after) ev = .ok ev') :
    Links (prevHashOf c prev.lastEvent) ev' := by
  obtain ⟨x, -, hx⟩ := runPreStore_append h
  obtain ⟨pc, hpc⟩ := Option.isSome_iff_exists.mp henabled
  have hhook : runPreStore cfg c prev (plugin :: after) x = runPreStore cfg c prev after
      { x with integrity := some ⟨hash (prevHashOf c prev.lastEvent) (projectionFromEvent x),
                                  prevHashOf c prev.lastEvent⟩ } := by
    rw [runPreStore, hpc]
    rfl
  rw [hhook] at hx
  have hint := integrity_runPreStore hafter hx
  have hproj := projectionFromEvent_annotates (annotates_runPreStore hx)
  rw [Links, hint, hproj]
  rfl

/-- The stored events form one chain: the first is linked to the genesis, every other one to the
event one version below it. -/
structure Linear (c : String) (hist : List Event) : Prop where
  /-- Every event carries the link that follows its `prev_hash`. -/
  signed : ∀ ev ∈ hist, ∃ prevHash, Links prevHash ev
  first : ∀ ev ∈ hist, ev.version = 1 → Links (genesis c) ev
  next : ∀ ev ∈ hist, ∀ last ∈ hist, ev.version = last.version + 1 →
    ∃ link, last.integrity = some link ∧ Links link.hash ev

theorem Linear.append {db : Db} {c e : String} (h : Linear c (db.hist c e))
    (hseq : db.Sequenced c e) {last : Option Event} {x : Event}
    (hlast : ∀ y, last = some y → y ∈ db.hist c e)
    (htop : last.elim 0 Event.version = db.top c e)
    (hx : x.version = (db.hist c e).length + 1) (hlinks : Links (prevHashOf c last) x) :
    Linear c (db.hist c e ++ [x]) := by
  rw [hseq.top_eq] at htop
  -- what the new event is linked to, by its version
  have hprev : (last = none ∧ prevHashOf c last = genesis c) ∨ ∃ y link, last = some y ∧
      y.integrity = some link ∧ prevHashOf c last = link.hash := by
    cases last with
    | none => exact .inl ⟨rfl, rfl⟩
    | some y =>
      obtain ⟨ph, hy⟩ := h.signed y (hlast y rfl)
      refine .inr ⟨y, _, rfl, hy, ?_⟩
      simp only [prevHashOf, Option.bind_some, show y.integrity = _ from hy]
      exact if_pos (digest_ne_empty _)
  refine ⟨fun ev hev => ?_, fun ev hev hv => ?_, fun ev hev y hy hv => ?_⟩
  · rcases mem_append.mp hev with hev | hev
    · exact h.signed ev hev
    · rw [mem_singleton.mp hev]
      exact ⟨_, hlinks⟩
  · rcases mem_append.mp hev with hev | hev
    · exact h.first ev hev hv
    · rw [mem_singleton.mp hev] at hv ⊢
      rcases hprev with ⟨-, hgen⟩ | ⟨y, link, rfl, -⟩
      · exact hgen ▸ hlinks
      · have := (hseq.mem_versions (hlast y rfl)).1
        simp only [Option.elim_some] at htop
        omega
  · rcases mem_append.mp hev with hev | hev
    · rcases mem_append.mp hy with hy | hy
      · exact h.next ev hev y hy hv
      · rw [mem_singleton.mp hy] at hv
        have := (hseq.mem_versions hev).2
        omega
    · rw [mem_singleton.mp hev] at hv ⊢
      rcases mem_append.mp hy with hy | hy
      · have hpos := (hseq.mem_versions hy).1
        rcases hprev with ⟨rfl, -⟩ | ⟨z, link, rfl, hlink, hz⟩
        · simp only [Option.elim_none] at htop
          omega
        · simp only [Option.elim_some] at htop
          have hyz : y = z := hseq.eq_of_version hy (hlast z rfl) (by omega)
          exact ⟨link, hyz ▸ hlink, hz ▸ hlinks⟩
      · rw [mem_singleton.mp hy] at hv
        omega

end HashChain

/-! ### Concurrent signing writers -/

/-- The last event that an observation has read. -/
def lastRead (c e : String) : Obs Storage → Option (Option Event)
  | ⟨.lastEvent c' e', .ok ev⟩ => if c' = c ∧ e' = e then some (some ev) else none
  | ⟨.lastEvent c' e', .error .notFound⟩ => if c' = c ∧ e' = e then some none else none
  | _ => none

private theorem sawLast_iff {seen : List (Obs Storage)} {c e : String} {last : Option Event} :
    SawLast seen c e last ↔ last ∈ seen.filterMap (lastRead c e) := by
  rw [mem_filterMap]
  constructor
  · intro h
    cases last with
    | none => exact ⟨_, h, by simp [lastRead]⟩
    | some ev => exact ⟨_, h, by simp [lastRead]⟩
  · rintro ⟨o, ho, hlast⟩
    unfold lastRead at hlast
    split at hlast
    · split_ifs at hlast with heq
      obtain ⟨rfl, rfl⟩ := heq
      cases hlast
      exact ho
    · split_ifs at hlast with heq
      obtain ⟨rfl, rfl⟩ := heq
      cases hlast
      exact ho
    · cases hlast

/-- When the event goes in, the history ends at the event the writer has linked it to. -/
def Write.LinksLast (w : Write) (seen : List (Obs Storage)) (db : Db) : Prop :=
  ∀ last, SawLast seen w.coll w.eid last → last.elim 0 Event.version = db.top w.coll w.eid

instance (w : Write) (seen : List (Obs Storage)) (db : Db) : Decidable (w.LinksLast seen db) :=
  decidable_of_iff (∀ last ∈ seen.filterMap (lastRead w.coll w.eid),
    last.elim 0 Event.version = db.top w.coll w.eid) (by simp only [Write.LinksLast, sawLast_iff])

/-- The write goes to the entity and through the plugin, and no plugin after it sets the
integrity block. -/
structure Write.Signs (w : Write) (c e : String) : Prop where
  coll : w.coll = c
  eid : w.eid = e
  plugins : ∃ pre after, w.ing.pre = pre ++ HashChain.plugin :: after ∧
    ∀ p ∈ after, p.KeepsIntegrity

/-- What a signing writer knows from an observation. -/
structure ChainFact (c e : String) (o : Obs Storage) (db : Db) : Prop where
  config : ∀ cfg, o = ⟨.ensureCollection c, .ok cfg⟩ →
    (enabledConfig cfg HashChain.plugin).isSome = true
  last : ∀ ev, o = ⟨.lastEvent c e, .ok ev⟩ → ev ∈ db.hist c e

/-- What is known of the chain during a run. -/
def chainLedger (ι : Type) (c e : String) : Ledger ι Storage Db where
  inv db := (enabledConfig (db c).config HashChain.plugin).isSome = true ∧
    HashChain.Linear c (db.hist c e)
  fact _ := ChainFact c e

/-- Every event goes in right behind the one it is linked to. Calls may fail. -/
def LinkedInserts {ι : Type} (writes : ι → Write) (i : ι) (seen : List (Obs Storage)) (call : Call)
    (_ : Fault) (db : Db) : Prop :=
  call.isInsert → (writes i).LinksLast seen db

instance {ι : Type} (writes : ι → Write) (i : ι) (seen : List (Obs Storage)) (call : Call)
    (f : Fault) (db : Db) : Decidable (LinkedInserts writes i seen call f db) :=
  inferInstanceAs (Decidable (_ → _))

section

variable {ι : Type} {writes : ι → Write} {c e : String}

/-- **One call of a signing writer.** -/
theorem chainLedger_sound (hw : ∀ i, (writes i).Signs c e) (srv : Server) :
    (chainLedger ι c e).SoundOver (handle srv) (versionLedger ι) (fun i => (writes i).Does)
      (LinkedInserts writes) := by
  rintro i seen call f db hdo hlinked hvinv hvfact ⟨henabled, hlinear⟩ hfact
  have hseq : db.Sequenced c e := hvinv c e
  have hprefix := hist_prefix_handle srv call f db c e
  refine ⟨⟨by rwa [config_handle], ?_⟩, ⟨fun cfg ho => ?_, fun ev ho => ?_⟩,
    fun j o ho => ⟨ho.config, fun ev hev => hprefix.subset (ho.last ev hev)⟩⟩
  · rcases hist_handle srv call f db c e with heq | ⟨x, rfl, hxe, -, hfree, -, happ⟩
    · rwa [heq]
    · rw [happ]
      have hv := hdo.disciplined.version_eq hvfact hseq hxe hfree
      have hkept := hlinked rfl
      obtain ⟨-, cfg, cur, planned, ev, newState, deleted, v, rfl, plan, -⟩ := hdo.insert_inv
      obtain ⟨hcoll, heid, pre, after, hpre, hafter⟩ := hw i
      have hcfg := plan.config
      have hhook := plan.hooked
      rw [Write.LinksLast, hcoll, heid] at hkept
      rw [hcoll] at hcfg
      have hen := (hfact _ hcfg).config cfg rfl
      have hhas : hasPreStore (writes i).ing.pre cfg = true := by
        rw [hasPreStore, hpre]
        simp [hen]
      rw [Write.Hooked, if_pos hhas, hcoll, heid, hpre] at hhook
      obtain ⟨last, hlast, hrun⟩ := hhook
      refine hlinear.append hseq (fun y hy => ?_) (hkept last hlast) hv
        ((HashChain.links_runPreStore hen hafter hrun).of_eq rfl rfl)
      subst hy
      exact (hfact _ hlast).last y rfl
  · obtain ⟨rfl, hr⟩ := Sigma.mk.inj_iff.mp ho
    rw [ensureCollection_ok (eq_of_heq hr)]
    exact henabled
  · obtain ⟨rfl, hr⟩ := Sigma.mk.inj_iff.mp ho
    exact hprefix.subset (lastEvent_ok (eq_of_heq hr))

variable [DecidableEq ι] {db : Db} {sched : List (ι × Fault)}

/-- **One chain.** Any number of concurrent writers of one entity in a collection with the
hash-chain plugin enabled since before the entity's first event, in any run in which every event
goes in right behind the event its writer has linked it to: the stored events form one chain
from the collection's genesis, in version order. -/
theorem chain_linear (srv : Server) (hw : ∀ i, (writes i).Signs c e)
    (hseq : ∀ c e, db.Sequenced c e)
    (henabled : (enabledConfig (db c).config HashChain.plugin).isSome = true)
    (hnew : db.hist c e = [])
    (hm : (Config.initial db fun i => (writes i).prog).Meets (handle srv) (LinkedInserts writes)
      sched) :
    HashChain.Linear c
      (((Config.initial db fun i => (writes i).prog).run (handle srv) sched).store.hist c e) := by
  have hinit : HashChain.Linear c (db.hist c e) := by
    rw [hnew]
    exact ⟨by simp, by simp, by simp⟩
  have hholds := ledger_run (chainLedger_sound hw srv) hseq ⟨henabled, hinit⟩ hm
  exact hholds.inv.2.2

end

/-- A collection with the plugin enabled, fail-closed. -/
def signedColl : Coll :=
  { config := { plugins := [(HashChain.name, ⟨true, .failClosed⟩)] } }

/-- A write of a state through the plugin. -/
def Write.signed (c e : String) (state : Fields) : Write :=
  { Write.ofState c e state with ing := { pre := [HashChain.plugin] } }

/-- Two signing writers, one after the other. -/
theorem chain_linear_serial :
    let writes : Bool → Write := fun i =>
      .signed "deals" "42" (if i then [("a", .bool true)] else [("b", .bool true)])
    let hist := ((Config.initial (fun _ => signedColl) fun i => (writes i).prog).run (handle .mongo)
      ([true, true, true, true, true, true, false, false, false, false, false, false].map
        (·, Fault.none))).store.hist "deals" "42"
    hist.map Event.version = [1, 2] ∧ HashChain.Linear "deals" hist := by
  refine ⟨by decide +kernel, chain_linear .mongo (fun i => ?_) (Db.Blank.sequenced ?_)
    (by decide +kernel) rfl (by decide +kernel)⟩
  · exact ⟨by cases i <;> rfl, by cases i <;> rfl, [], [], rfl, by simp⟩
  · exact fun _ => ⟨rfl, fun _ => rfl⟩

/-- Two signing writers that read the last event before either has written: both links follow
the genesis, and the second event does not continue the first. -/
theorem racing_links_fork :
    let writes : Bool → Write := fun i =>
      .signed "deals" "42" (if i then [("a", .bool true)] else [("b", .bool true)])
    let hist := ((Config.initial (fun _ => signedColl) fun i => (writes i).prog).run (handle .mongo)
      ([true, true, true, false, false, false, true, true, true, false, false, false].map
        (·, Fault.none))).store.hist "deals" "42"
    hist.map Event.version = [1, 2] ∧
      (hist.map fun ev => ev.integrity.map Integrity.prevHash) =
        [some (HashChain.genesis "deals"), some (HashChain.genesis "deals")] ∧
      (hist.map fun ev => ev.integrity.map Integrity.hash).head? ≠
        some (some (HashChain.genesis "deals")) := by
  decide +kernel

end Letopis
