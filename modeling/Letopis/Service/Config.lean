import Letopis.Domain.Collection
import Letopis.Interleaving.Trace
import Letopis.Storage.Db
import Letopis.Storage.Names
import Letopis.Tenant.Principal

/-!
# Collection settings: resolving and updating

The settings of a collection are a document of the tenant's database. Each process keeps the
effective settings that it has read in a cache, for a time. `ensureCollection` resolves the settings
of a collection on behalf of a write; the first write to a collection without settings stores the
defaults and then provisions the collection, that is, creates the physical collections and their
indexes. `update` stores the settings that an administrator has sent, provisions the collection and
drops the settings from the cache of its own process.

Everything here happens in the database of one tenant. The calls on the cache take the process that
makes them, and a step comes with the clock that they read. The audit record of an update is left
out: it is written last, and nothing depends on it.
-/

namespace Letopis

open Interleaving List

/-! ### The store -/

/-- What provisioning creates: the physical collections of events, current states and snapshots,
the indexes of the first, among them the unique ones on `{eid, v}` and `{event_id}`, and those of
the last. -/
inductive PhysicalPart where
  | events
  | current
  | snapshots
  | eventIndexes
  | snapshotIndexes
  deriving DecidableEq

/-- The parts, in the order in which they are created. -/
def PhysicalPart.all : List PhysicalPart :=
  [.events, .current, .snapshots, .eventIndexes, .snapshotIndexes]

/-- Effective settings that a process has read. -/
structure CacheEntry where
  cfg : StoredConfig
  expires : Nat

/-- The settings in a tenant's database, what is provisioned there, and the caches of the
processes. -/
structure ConfigStore where
  docs : String → Option StoredConfig := fun _ => none
  parts : String → PhysicalPart → Bool := fun _ _ => false
  cache : Nat → String → Option CacheEntry := fun _ _ => none

/-- All parts of the collection are there. -/
def ConfigStore.Provisioned (s : ConfigStore) (collection : String) : Prop :=
  ∀ part, s.parts collection part = true

instance (s : ConfigStore) (collection : String) : Decidable (s.Provisioned collection) :=
  decidable_of_iff (∀ part ∈ PhysicalPart.all, s.parts collection part = true)
    ⟨fun h part => h part (by cases part <;> decide), fun h part _ => h part⟩

/-- An error of the settings. -/
inductive ConfigErr where
  | notFound
  | name (e : NameErr)
  | failed
  /-- The collection has no settings, and none are to be created. -/
  | autoCreateDisabled
  | invalid (e : ConfigError)
  deriving DecidableEq

/-! ### Calls -/

/-- The calls to the caches and to the database. -/
inductive ConfigCall where
  | cached (proc : Nat) (key : String)
  | store (proc : Nat) (key : String) (cfg : StoredConfig) (ttl : Nat)
  | invalidate (proc : Nat) (key : String)
  | getConfig (collection : String)
  | saveConfig (cfg : StoredConfig)
  | create (collection : String) (part : PhysicalPart)

/-- What a call returns. -/
abbrev ConfigCall.Reply : ConfigCall → Type
  | .cached _ _ => Option StoredConfig
  | .store _ _ _ _ | .invalidate _ _ => Unit
  | .getConfig _ => Except ConfigErr StoredConfig
  | .saveConfig _ | .create _ _ => Except ConfigErr Unit

/-- The interface of the settings. -/
abbrev Configs : Interface := ⟨ConfigCall, ConfigCall.Reply⟩

/-- Make one call. -/
abbrev Configs.ask (call : ConfigCall) : Prog Configs call.Reply := Prog.ask (I := Configs) call

/-- What a call meets: how it fails, and the clock. -/
structure Moment where
  /-- How the call fails, if it is a storage call. -/
  fault : Fault := .none
  now : Nat := 0

namespace ConfigStore

/-- Replace the settings of a collection. -/
def save (s : ConfigStore) (cfg : StoredConfig) : ConfigStore :=
  { s with docs := Function.update s.docs cfg.name (some cfg) }

/-- Create a part of a collection; one that is there already stays. -/
def provision (s : ConfigStore) (collection : String) (part : PhysicalPart) : ConfigStore :=
  { s with parts := fun c p => (decide (c = collection) && decide (p = part)) || s.parts c p }

/-- Set or drop an entry of a cache. -/
def remember (s : ConfigStore) (proc : Nat) (key : String) (entry : Option CacheEntry) :
    ConfigStore :=
  { s with cache := fun p k => if p = proc ∧ k = key then entry else s.cache p k }

/-- Settings that are in a cache and not yet expired. -/
def fresh (s : ConfigStore) (proc : Nat) (key : String) (now : Nat) : Option StoredConfig :=
  match s.cache proc key with
  | some entry => if now < entry.expires then some entry.cfg else none
  | none => none

theorem exists_of_fresh {s : ConfigStore} {proc : Nat} {key : String} {now : Nat}
    {cfg : StoredConfig} (h : s.fresh proc key now = some cfg) :
    ∃ entry, s.cache proc key = some entry := by
  unfold fresh at h
  split at h
  · exact ⟨_, ‹_›⟩
  · cases h

end ConfigStore

/-- A storage call on a collection, under a fault: a name that is not one of a collection is
refused before the storage is reached. -/
def onCollection {α : Type} (collection : String) (fault : Fault) (s : ConfigStore)
    (act : Except ConfigErr α × ConfigStore) : Except ConfigErr α × ConfigStore :=
  match validateLogical collection with
  | .error e => (.error (.name e), s)
  | .ok () =>
    match fault with
    | .none => act
    | .before => (.error .failed, s)
    | .after => (.error .failed, act.2)

theorem onCollection_store {α : Type} (c : String) (fault : Fault) (s : ConfigStore)
    (act : Except ConfigErr α × ConfigStore) :
    (onCollection c fault s act).2 = s ∨ (onCollection c fault s act).2 = act.2 := by
  unfold onCollection
  split
  · exact .inl rfl
  · cases fault with
    | none | after => exact .inr rfl
    | before => exact .inl rfl

theorem eq_of_onCollection_ok {α : Type} {c : String} {fault : Fault} {s : ConfigStore}
    {act : Except ConfigErr α × ConfigStore} {a : α}
    (h : (onCollection c fault s act).1 = .ok a) : onCollection c fault s act = act := by
  unfold onCollection at h ⊢
  split at h
  · cases h
  · cases fault with
    | none => rfl
    | before | after => cases h

theorem onCollection_none {α : Type} {c : String} (hc : logicalName c = true) (s : ConfigStore)
    (act : Except ConfigErr α × ConfigStore) : onCollection c .none s act = act := by
  simp only [onCollection, validateLogical_eq_ok.mpr hc]

/-- Answer a call for settings. -/
def handleConfig : Handler Configs Moment ConfigStore := fun c m s =>
  match c with
  | .cached proc key => (s.fresh proc key m.now, s)
  | .store proc key cfg ttl => ((), s.remember proc key (some ⟨cfg, m.now + ttl⟩))
  | .invalidate proc key => ((), s.remember proc key none)
  | .getConfig c => onCollection c m.fault s ((s.docs c).elim (.error .notFound) .ok, s)
  | .saveConfig cfg => onCollection cfg.name m.fault s (.ok (), s.save cfg)
  | .create c part => onCollection c m.fault s (.ok (), s.provision c part)

/-! ### The programs -/

/-- The key of a collection in the caches. -/
def cacheKey (t : Tenant) (collection : String) : String :=
  t.databaseName ++ "|" ++ collection

theorem cacheKey_injective (t : Tenant) : Function.Injective (cacheKey t) := by
  intro c d h
  simpa [cacheKey, String.append_assoc] using h

/-- The resolver of a process. -/
structure ConfigResolver where
  proc : Nat := 0
  /-- Whether the first write to a collection creates it. -/
  autoCreate : Bool := true
  /-- How long settings stay in the cache: thirty seconds, in nanoseconds. -/
  ttl : Nat := 30000000000

/-- Create what is missing of a collection. -/
def createParts (collection : String) : List PhysicalPart → Prog Configs (Except ConfigErr Unit)
  | [] => return .ok ()
  | part :: parts => do
    match ← Configs.ask (.create collection part) with
    | .error e => return .error e
    | .ok () => createParts collection parts

/-- Creating parts forgets nothing, and if it succeeds the parts have been created. -/
theorem createParts_along {P : List (Obs Configs) → ConfigCall → Prop} {c : String}
    (hP : ∀ seen part, P seen (.create c part)) (parts : List PhysicalPart)
    (seen : List (Obs Configs)) :
    Along P (fun res seen' => seen ⊆ seen' ∧ (res = .ok () →
      ∀ part ∈ parts, (⟨.create c part, .ok ()⟩ : Obs Configs) ∈ seen'))
      (createParts c parts) seen := by
  induction parts generalizing seen with
  | nil => exact ⟨List.Subset.refl _, fun _ part hpart => absurd hpart not_mem_nil⟩
  | cons part parts ih =>
    refine Along.ask_bind_iff.mpr ⟨hP _ _, fun res => ?_⟩
    rcases res with e | ⟨⟩
    · exact ⟨subset_cons_self _ _, fun h => nomatch h⟩
    · refine (ih _).mono fun res seen' h => ⟨fun o ho => ?_, fun hres => ?_⟩
      · exact h.1 (mem_cons_of_mem _ ho)
      · exact forall_mem_cons.mpr ⟨h.1 mem_cons_self, h.2 hres⟩

/-- Create the physical collections. -/
def ensurePhysical (collection : String) : Prog Configs (Except ConfigErr Unit) :=
  createParts collection PhysicalPart.all

namespace ConfigResolver

variable (r : ConfigResolver) (t : Tenant) (collection : String)

/-- The effective settings of a collection, from the cache if they are there. -/
def get : Prog Configs (Except ConfigErr StoredConfig) := do
  let key := cacheKey t collection
  match ← Configs.ask (.cached r.proc key) with
  | some cfg => return .ok cfg
  | none =>
    match ← Configs.ask (.getConfig collection) with
    | .error e => return .error e
    | .ok stored =>
      let cfg := stored.withDefaults
      Configs.ask (.store r.proc key cfg r.ttl)
      return .ok cfg

/-- The settings that a collection is created with. -/
def created : StoredConfig := StoredConfig.withDefaults { name := collection }

/-- The effective settings of a collection, which is created if it has none. -/
def ensureCollection : Prog Configs (Except ConfigErr StoredConfig) := do
  match ← r.get t collection with
  | .ok cfg => return .ok cfg
  | .error e =>
    if e ≠ .notFound then return .error e
    else if !r.autoCreate then return .error .autoCreateDisabled
    else
      match ← Configs.ask (.saveConfig (created collection)) with
      | .error e => return .error e
      | .ok () =>
        match ← ensurePhysical collection with
        | .error e => return .error e
        | .ok () =>
          Configs.ask (.store r.proc (cacheKey t collection) (created collection) r.ttl)
          return .ok (created collection)

end ConfigResolver

/-- The service behind the settings API. -/
structure CollectionConfigService where
  /-- The process whose cache it invalidates, if there is one. -/
  cache : Option Nat := some 0

/-- Check and store settings, and drop them from the cache. -/
def CollectionConfigService.update (svc : CollectionConfigService) (t : Tenant)
    (cfg : StoredConfig) : Prog Configs (Except ConfigErr StoredConfig) := do
  match cfg.validate with
  | .error e => return .error (.invalid e)
  | .ok () =>
    match ← Configs.ask (.saveConfig cfg) with
    | .error e => return .error e
    | .ok () =>
      match ← ensurePhysical cfg.name with
      | .error e => return .error e
      | .ok () =>
        match svc.cache with
        | some proc => Configs.ask (.invalidate proc (cacheKey t cfg.name))
        | none => pure ()
        return .ok cfg.withDefaults

/-- What a thread does with the settings. -/
inductive ConfigOp where
  | ensure (r : ConfigResolver) (collection : String)
  | update (svc : CollectionConfigService) (cfg : StoredConfig)

/-- What the thread runs. -/
def ConfigOp.prog (t : Tenant) : ConfigOp → Prog Configs (Except ConfigErr StoredConfig)
  | .ensure r collection => r.ensureCollection t collection
  | .update svc cfg => svc.update t cfg

/-- Threads at work in a tenant's database, all processes having just started. -/
def configPool {ι : Type} (t : Tenant) (ops : ι → ConfigOp) (docs : String → Option StoredConfig)
    (parts : String → PhysicalPart → Bool) :
    Config ι Configs (Except ConfigErr StoredConfig) ConfigStore :=
  .initial { docs, parts } fun i => (ops i).prog t

end Letopis
