import Letopis.Service.Config

/-!
# Settings without a collection

`ensureCollection` stores the settings of a new collection before it provisions the collection, and
so does `update`. Whoever resolves the settings in between finds them and takes the collection for
granted; and if the provisioning fails, it stays that way. If no one looks at the settings of a
collection between the two, the settings that `ensureCollection` returns are those of a provisioned
collection.
-/

namespace Letopis

open Interleaving List

/-! ### What a thread does -/

/-- The thread has found the settings of the collection in the database. -/
def Found (c : String) (seen : List (Obs Configs)) : Prop :=
  ∃ cfg, (⟨.getConfig c, .ok cfg⟩ : Obs Configs) ∈ seen

/-- The thread has created all parts of the collection. -/
def CreatedAll (c : String) (seen : List (Obs Configs)) : Prop :=
  ∀ part, (⟨.create c part, .ok ()⟩ : Obs Configs) ∈ seen

/-- The thread has found the settings under a key in the cache. -/
def Hit (proc : Nat) (key : String) (seen : List (Obs Configs)) : Prop :=
  ∃ cfg, (⟨.cached proc key, some cfg⟩ : Obs Configs) ∈ seen

variable (t : Tenant)

/-- Settings go into a cache once they have been found in the database or the collection has been
created. -/
def MayStore (seen : List (Obs Configs)) : ConfigCall → Prop
  | .store _ key _ _ => ∃ c, key = cacheKey t c ∧ (Found c seen ∨ CreatedAll c seen)
  | _ => True

/-- Settings that `ensureCollection` returns come from the cache or from the database, or are those
of a collection that it has created. -/
def Resolved (op : ConfigOp) (res : Except ConfigErr StoredConfig) (seen : List (Obs Configs)) :
    Prop :=
  ∀ r c cfg, op = .ensure r c → res = .ok cfg →
    Hit r.proc (cacheKey t c) seen ∨ Found c seen ∨ CreatedAll c seen

private theorem ensurePhysical_along (c : String) (seen : List (Obs Configs)) :
    Along (MayStore t) (fun res seen' => res = .ok () → CreatedAll c seen') (ensurePhysical c)
      seen := by
  refine (createParts_along (fun _ _ => trivial) _ seen).mono fun res seen' h hres part => ?_
  exact h.2 hres part (by cases part <;> decide)

private theorem ConfigResolver.get_along (r : ConfigResolver) (c : String)
    (seen : List (Obs Configs)) : Along (MayStore t) (fun res seen' => ∀ cfg, res = .ok cfg →
      Hit r.proc (cacheKey t c) seen' ∨ Found c seen') (r.get t c) seen := by
  refine Along.ask_bind_iff.mpr ⟨trivial, fun hit => ?_⟩
  rcases hit with _ | cfg
  · refine Along.ask_bind_iff.mpr ⟨trivial, fun res => ?_⟩
    rcases res with e | stored
    · exact fun cfg h => nomatch h
    · refine Along.ask_bind_iff.mpr ⟨?_, fun _ cfg _ => .inr ?_⟩
      · exact ⟨c, rfl, .inl ⟨stored, mem_cons_self⟩⟩
      · exact ⟨stored, mem_cons_of_mem _ mem_cons_self⟩
  · exact fun _ _ => .inl ⟨cfg, mem_cons_self⟩

private theorem ConfigResolver.ensureCollection_along (r : ConfigResolver) (c : String) :
    Along (MayStore t) (Resolved t (.ensure r c)) (r.ensureCollection t c) [] := by
  refine Along.bind_iff.mpr ((r.get_along t c []).mono fun res seen hres => ?_)
  rcases res with e | cfg
  · dsimp only
    split_ifs
    · exact fun _ _ _ _ h => nomatch h
    · exact fun _ _ _ _ h => nomatch h
    · refine Along.ask_bind_iff.mpr ⟨trivial, fun saved => ?_⟩
      rcases saved with e | ⟨⟩
      · exact fun _ _ _ _ h => nomatch h
      · refine Along.bind_iff.mpr ((ensurePhysical_along t c _).mono fun res seen hall => ?_)
        rcases res with e | ⟨⟩
        · exact fun _ _ _ _ h => nomatch h
        · refine Along.ask_bind_iff.mpr ⟨⟨c, rfl, .inr (hall rfl)⟩, fun _ => ?_⟩
          intro r' c' cfg hop _
          cases hop
          exact .inr (.inr fun part => mem_cons_of_mem _ (hall rfl part))
  · intro r' c' cfg' hop hcfg
    cases hop
    exact (hres cfg rfl).imp_right .inl

private theorem CollectionConfigService.update_along (svc : CollectionConfigService)
    (cfg : StoredConfig) :
    Along (MayStore t) (Resolved t (.update svc cfg)) (svc.update t cfg) [] := by
  have hpost : ∀ res seen, Resolved t (.update svc cfg) res seen :=
    fun _ _ _ _ _ hop => nomatch hop
  rw [update]
  split
  · exact hpost _ _
  · refine Along.ask_bind_iff.mpr ⟨trivial, fun saved => ?_⟩
    rcases saved with e | ⟨⟩
    · exact hpost _ _
    · refine Along.bind_iff.mpr ((ensurePhysical_along t _ _).mono fun res seen _ => ?_)
      rcases res with e | ⟨⟩
      · exact hpost _ _
      · rcases svc.cache with _ | proc
        · exact hpost _ _
        · exact Along.ask_bind_iff.mpr ⟨trivial, fun _ => hpost _ _⟩

private theorem ConfigOp.prog_along (op : ConfigOp) :
    Along (MayStore t) (Resolved t op) (op.prog t) [] := by
  cases op with
  | ensure r c => exact r.ensureCollection_along t c
  | update svc cfg => exact svc.update_along t cfg

/-! ### What the store then looks like -/

private theorem parts_handleConfig (call : ConfigCall) (m : Moment) (s : ConfigStore) {c : String}
    {part : PhysicalPart} (h : s.parts c part = true) :
    (handleConfig call m s).2.parts c part = true := by
  have hon : ∀ {α : Type} (d : String) (act : Except ConfigErr α × ConfigStore),
      act.2.parts c part = true → (onCollection d m.fault s act).2.parts c part = true := by
    intro α d act hact
    rcases onCollection_store d m.fault s act with heq | heq
    · rwa [heq]
    · rwa [heq]
  cases call with
  | cached | store | invalidate => exact h
  | getConfig d => exact hon d _ h
  | saveConfig cfg => exact hon cfg.name _ h
  | create d p => exact hon d _ (by simp [ConfigStore.provision, h])

theorem ConfigStore.Provisioned.handleConfig {s : ConfigStore} {c : String} (h : s.Provisioned c)
    (call : ConfigCall) (m : Moment) : (handleConfig call m s).2.Provisioned c :=
  fun part => parts_handleConfig call m s (h part)

theorem cache_handleConfig {call : ConfigCall} {m : Moment} {s : ConfigStore}
    {proc : Nat} {key : String} {entry : CacheEntry}
    (h : (handleConfig call m s).2.cache proc key = some entry) :
    s.cache proc key = some entry ∨ ∃ ttl, call = .store proc key entry.cfg ttl := by
  have hon : ∀ {α : Type} (d : String) (act : Except ConfigErr α × ConfigStore),
      act.2.cache = s.cache → (onCollection d m.fault s act).2.cache = s.cache := by
    intro α d act hact
    rcases onCollection_store d m.fault s act with heq | heq
    · rw [heq]
    · rw [heq, hact]
  cases call with
  | cached => exact .inl h
  | store p k cfg ttl =>
    by_cases hpk : proc = p ∧ key = k
    · obtain ⟨rfl, rfl⟩ := hpk
      have hentry : some ⟨cfg, m.now + ttl⟩ = some entry := by
        simpa [Letopis.handleConfig, ConfigStore.remember] using h
      cases hentry
      exact .inr ⟨ttl, rfl⟩
    · rw [Letopis.handleConfig, ConfigStore.remember] at h
      exact .inl (by simpa [hpk] using h)
  | invalidate p k =>
    rw [Letopis.handleConfig, ConfigStore.remember] at h
    -- what is forgotten is not found
    by_cases hpk : proc = p ∧ key = k
    · simp [hpk] at h
    · exact .inl (by simpa [hpk] using h)
  | getConfig d =>
    rw [Letopis.handleConfig, hon d _ rfl] at h
    exact .inl h
  | saveConfig cfg =>
    rw [Letopis.handleConfig, hon cfg.name _ rfl] at h
    exact .inl h
  | create d p =>
    rw [Letopis.handleConfig, hon d _ rfl] at h
    exact .inl h

/-- A look at settings finds those of a provisioned collection only. -/
def FindsProvisioned (call : ConfigCall) (s : ConfigStore) : Prop :=
  match call with
  | .getConfig c => (s.docs c).isSome → s.Provisioned c
  | _ => True

instance (call : ConfigCall) (s : ConfigStore) : Decidable (FindsProvisioned call s) := by
  unfold FindsProvisioned
  split <;> infer_instance

/-- Cached settings, and settings that a thread has found, are those of provisioned collections. -/
def provisionLedger {ι : Type} : Ledger ι Configs ConfigStore where
  inv s := ∀ proc c entry, s.cache proc (cacheKey t c) = some entry → s.Provisioned c
  fact _ o s :=
    match o with
    | ⟨.cached _ key, some _⟩ => ∀ c, key = cacheKey t c → s.Provisioned c
    | ⟨.getConfig c, .ok _⟩ => s.Provisioned c
    | ⟨.create c part, .ok _⟩ => s.parts c part = true
    | _ => True

namespace provisionLedger

variable {ι : Type} {t} {i : ι} {seen : List (Obs Configs)} {s : ConfigStore}

private theorem fact_handleConfig {o : Obs Configs} (h : (provisionLedger t).fact i o s)
    (call : ConfigCall) (m : Moment) : (provisionLedger t).fact i o (handleConfig call m s).2 := by
  obtain ⟨c, res⟩ := o
  cases c with
  | cached proc key =>
    cases res with
    | none => exact trivial
    | some cfg => exact fun c hc => (h c hc).handleConfig call m
  | store | invalidate | saveConfig => exact trivial
  | getConfig c =>
    cases res with
    | error e => exact trivial
    | ok cfg => exact ConfigStore.Provisioned.handleConfig h call m
  | create c part =>
    cases res with
    | error e => exact trivial
    | ok u => exact parts_handleConfig call m s h

/-- Settings that have been found, or whose collection has been created, are those of a provisioned
collection. -/
theorem provisioned_of_mem (h : ∀ o ∈ seen, (provisionLedger t).fact i o s) {c : String}
    (hc : Found c seen ∨ CreatedAll c seen) : s.Provisioned c := by
  rcases hc with ⟨cfg, hmem⟩ | hall
  · exact h _ hmem
  · exact fun part => h _ (hall part)

private theorem fact_new (call : ConfigCall) (m : Moment) (hfind : FindsProvisioned call s)
    (hinv : (provisionLedger (ι := ι) t).inv s) :
    (provisionLedger t).fact i ⟨call, (handleConfig call m s).1⟩ (handleConfig call m s).2 := by
  generalize hres : (handleConfig call m s).1 = res
  cases call with
  | store | invalidate | saveConfig => exact trivial
  | cached proc key =>
    cases res with
    | none => exact trivial
    | some cfg =>
      obtain ⟨entry, hentry⟩ := ConfigStore.exists_of_fresh hres
      exact fun c hc => hinv proc c entry (hc ▸ hentry)
  | getConfig c =>
    cases res with
    | error e => exact trivial
    | ok cfg =>
      -- a reply without an error is that of the database, so there is a document
      have hdoc : ((s.docs c).elim (.error .notFound) .ok : Except ConfigErr _) = .ok cfg := by
        rw [← hres, handleConfig, eq_of_onCollection_ok hres]
      refine ConfigStore.Provisioned.handleConfig (hfind ?_) (.getConfig c) m
      cases hc : s.docs c with
      | none => simp [hc] at hdoc
      | some cfg => rfl
  | create c part =>
    cases res with
    | error e => exact trivial
    | ok u =>
      change (handleConfig (.create c part) m s).2.parts c part = true
      rw [handleConfig, eq_of_onCollection_ok hres]
      simp [ConfigStore.provision]

private theorem sound : (provisionLedger (ι := ι) t).Sound handleConfig (fun _ => MayStore t)
    fun _ _ call _ s => FindsProvisioned call s := by
  intro i seen call m s hP hC hinv hfact
  refine ⟨fun proc c entry hentry => ?_, fact_new call m hC hinv,
    fun j o ho => fact_handleConfig ho call m⟩
  rcases cache_handleConfig hentry with hold | ⟨cfg, ttl, rfl⟩
  · exact (hinv proc c entry hold).handleConfig call m
  · -- keys of a tenant name one collection, and its writer has found or created it
    obtain ⟨c', hkey, hc'⟩ := hP
    rw [cacheKey_injective t hkey]
    exact provisioned_of_mem hfact hc'

end provisionLedger

/-- **Provisioning.** However the calls of any number of processes interleave and fail: if every
look at settings in the database finds those of a provisioned collection, then the settings that
`ensureCollection` returns are those of a provisioned collection. -/
theorem ensureCollection_provisioned {ι : Type} [DecidableEq ι] (t : Tenant) (ops : ι → ConfigOp)
    (docs : String → Option StoredConfig) (parts : String → PhysicalPart → Bool)
    (sched : List (ι × Moment))
    (hm : (configPool t ops docs parts).Meets handleConfig
      (fun _ _ call _ s => FindsProvisioned call s) sched)
    (i : ι) (r : ConfigResolver) (c : String) (cfg : StoredConfig) (hop : ops i = .ensure r c)
    (hret : ((configPool t ops docs parts).run handleConfig sched).Returned i (.ok cfg)) :
    ((configPool t ops docs parts).run handleConfig sched).store.Provisioned c := by
  have hfollows : (configPool t ops docs parts).Follows (fun _ => MayStore t)
      fun i => Resolved t (ops i) := fun i => (ops i).prog_along t
  have hledger := ((provisionLedger t).holds_initial (s := { docs, parts })
    (fun _ _ _ h => nomatch h) fun i => (ops i).prog t).run provisionLedger.sound hfollows hm
  have hfact := hledger.fact i
  rcases (hfollows.run sched).post hret r c cfg hop rfl with ⟨cfg', hmem⟩ | hc
  · exact hfact _ hmem c rfl
  · exact provisionLedger.provisioned_of_mem hfact hc

/-- Two processes write to a new collection one after the other, and the second finds it
provisioned. -/
theorem ensureCollection_provisioned_two :
    let c := configPool ⟨"acme", "", ""⟩ (fun p : Fin 2 => .ensure { proc := p } "deals")
      (fun _ => none) fun _ _ => false
    let quiet : Moment := {}
    let sched := List.replicate 9 ((0 : Fin 2), quiet) ++ List.replicate 3 (1, quiet)
    (c.run handleConfig sched).store.Provisioned "deals" := by
  intro c quiet sched
  have hm : c.Meets handleConfig (fun _ _ call _ s => FindsProvisioned call s) sched := by
    decide +kernel
  have hret : (c.run handleConfig sched).Returned 1 (.ok (ConfigResolver.created "deals")) :=
    Config.returned_iff.mpr (by decide +kernel)
  exact ensureCollection_provisioned _ _ _ _ sched hm 1 _ _ _ rfl hret

/-- The first of two processes that write to a new collection has stored the settings and not yet
provisioned the collection. The second returns the settings. -/
theorem ensureCollection_unprovisioned :
    let c := configPool ⟨"acme", "", ""⟩ (fun p : Fin 2 => .ensure { proc := p } "deals")
      (fun _ => none) fun _ _ => false
    let quiet : Moment := {}
    let sched := List.replicate 3 ((0 : Fin 2), quiet) ++ List.replicate 3 (1, quiet)
    (c.run handleConfig sched).Returned 1 (.ok (ConfigResolver.created "deals")) ∧
      ∀ part, (c.run handleConfig sched).store.parts "deals" part = false := by
  intro c quiet sched
  refine ⟨Config.returned_iff.mpr (by decide +kernel), fun part => ?_⟩
  cases part <;> decide +kernel

end Letopis
