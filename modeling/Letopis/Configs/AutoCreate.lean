import Letopis.Service.Config

/-!
# Defaults over settings

`ensureCollection` looks for the settings of a collection and, if there are none, stores the
defaults. The two are separate calls, and the second replaces whatever is there by then: settings
that an administrator stores in between are lost. Nothing else is lost: where `ensureCollection`
finds no settings, `update` has not stored any before. The settings in the database are therefore
those that were stored last by `update` exactly if none are stored in between (`updatesKept_iff`).
-/

namespace Letopis

open Interleaving List

variable {ι : Type} (ops : ι → ConfigOp) (c : String)

/-- The settings of the collection that a call of `update` stores. -/
def savedByUpdate : ι × ConfigCall → Option StoredConfig
  | (i, .saveConfig cfg) =>
    match ops i with
    | .update _ _ => if cfg.name = c then some cfg else none
    | .ensure _ _ => none
  | _ => none

/-- The settings of the collection that were stored last by `update`. -/
def lastUpdate (calls : List (ι × ConfigCall)) : Option StoredConfig :=
  (calls.filterMap (savedByUpdate ops c)).getLast?

private theorem lastUpdate_append (calls later : List (ι × ConfigCall)) :
    lastUpdate ops c (calls ++ later) = (lastUpdate ops c later).or (lastUpdate ops c calls) := by
  rw [lastUpdate, filterMap_append, getLast?_append]
  rfl

private theorem lastUpdate_singleton (call : ι × ConfigCall) :
    lastUpdate ops c [call] = savedByUpdate ops c call := by
  cases h : savedByUpdate ops c call <;> simp [lastUpdate, h]

variable [DecidableEq ι] (t : Tenant) (docs : String → Option StoredConfig)
  (parts : String → PhysicalPart → Bool)

/-- After every part of the schedule, the settings in the database are those that were stored last
by `update`, if any were. -/
def UpdatesKept (sched : List (ι × Moment)) : Prop :=
  let pool := configPool t ops docs parts
  ∀ s, s <+: sched → ∀ cfg, lastUpdate ops c (pool.calls handleConfig s) = some cfg →
    (pool.run handleConfig s).store.docs c = some cfg

/-- Between the `getConfig` with which an `ensureCollection` finds no settings and the `saveConfig`
with which it stores the defaults, no `update` stores settings, unless the last ones to be stored
there are the defaults themselves. -/
def NoUpdateBetween (sched : List (ι × Moment)) : Prop :=
  let pool := configPool t ops docs parts
  ∀ s m between a, s ++ (a.1, m) :: between ++ [a] <+: sched → ∀ r, ops a.1 = .ensure r c →
    (pool.run handleConfig s).AboutTo a.1 (.getConfig c) →
    (pool.run handleConfig s).store.docs c = none →
    ∀ d, (pool.run handleConfig (s ++ (a.1, m) :: between)).AboutTo a.1 (.saveConfig d) →
    ∀ cfg, lastUpdate ops c ((pool.run handleConfig (s ++ [(a.1, m)])).calls handleConfig between) =
      some cfg → cfg = ConfigResolver.created c

/-! ### One step -/

variable {c} in
private theorem docs_handleConfig (hc : logicalName c = true) (call : ConfigCall) (now : Nat)
    (s : ConfigStore) :
    (handleConfig call ⟨.none, now⟩ s).2.docs c =
      match call with
      | .saveConfig cfg => if cfg.name = c then some cfg else s.docs c
      | _ => s.docs c := by
  cases call with
  | cached | store | invalidate => rfl
  | getConfig d =>
    dsimp only [handleConfig]
    rcases onCollection_store d .none s ((s.docs d).elim (.error .notFound) .ok, s) with h | h
    · rw [h]
    · rw [h]
  | saveConfig cfg =>
    dsimp only [handleConfig]
    split_ifs with hname
    · rw [onCollection_none (by rwa [hname])]
      simp [ConfigStore.save, hname]
    · rcases onCollection_store cfg.name .none s (.ok (), s.save cfg) with h | h
      · rw [h]
      · rw [h]
        simp [ConfigStore.save, Ne.symm hname]
  | create d part =>
    dsimp only [handleConfig]
    rcases onCollection_store d .none s (.ok (), s.provision d part) with h | h
    · rw [h]
    · rw [h]
      rfl

variable {ops t docs parts c} in
/-- A step keeps the settings that were stored last by `update`, unless it stores defaults. -/
theorem kept_step (hc : logicalName c = true) {s : List (ι × Moment)} {a : ι × Moment}
    (ha : a.2.fault = .none)
    (hs : ∀ cfg, lastUpdate ops c ((configPool t ops docs parts).calls handleConfig s) = some cfg →
      ((configPool t ops docs parts).run handleConfig s).store.docs c = some cfg)
    (hlate : ∀ r c' d k, ops a.1 = .ensure r c' → d.name = c →
      (((configPool t ops docs parts).run handleConfig s).threads a.1).prog =
        .call (.saveConfig d) k →
      ∀ cfg, lastUpdate ops c ((configPool t ops docs parts).calls handleConfig s) = some cfg →
        cfg = d)
    (cfg : StoredConfig)
    (hcfg : lastUpdate ops c ((configPool t ops docs parts).calls handleConfig (s ++ [a])) =
      some cfg) :
    ((configPool t ops docs parts).run handleConfig (s ++ [a])).store.docs c = some cfg := by
  rw [Config.calls_append] at hcfg
  rw [Config.run_append]
  -- how the run got here does not matter any more
  generalize (configPool t ops docs parts).run handleConfig s = now at hs hlate hcfg ⊢
  generalize (configPool t ops docs parts).calls handleConfig s = calls at hs hlate hcfg
  rcases now.step_calls handleConfig a with ⟨hstep, hcalls⟩ | ⟨call, k, hprog, hcalls, hstore⟩
  · rw [hcalls, append_nil] at hcfg
    rw [Config.run_cons, hstep]
    exact hs cfg hcfg
  · have ha' : a.2 = ⟨.none, a.2.now⟩ := by rw [← ha]
    rw [hcalls, lastUpdate_append, lastUpdate_singleton] at hcfg
    rw [Config.run_cons, Config.run_nil, hstore, ha', docs_handleConfig hc]
    cases call with
    | cached | store | invalidate | getConfig | create => exact hs cfg hcfg
    | saveConfig d =>
      dsimp only
      split_ifs with hname
      · cases hop : ops a.1 with
        | ensure r c' =>
          -- defaults are stored: they are the settings that were stored last anyway
          simp only [savedByUpdate, hop, Option.none_or] at hcfg
          rw [hlate r c' d k hop hname hprog cfg hcfg]
        | update svc cfg' => simpa [savedByUpdate, hop, hname] using hcfg
      · refine hs cfg ?_
        cases hop : ops a.1 <;> simpa [savedByUpdate, hop, hname] using hcfg

/-! ### Where defaults come from -/

/-- A call that stores settings stores the defaults, and no settings were found before. -/
def StoresDefaults (d : String) (seen : List (Obs Configs)) (call : ConfigCall) : Prop :=
  ∀ cfg, call = .saveConfig cfg →
    cfg = ConfigResolver.created d ∧ ⟨.getConfig d, .error .notFound⟩ ∈ seen

private theorem ConfigResolver.ensureCollection_stores (r : ConfigResolver) (d : String) :
    Along (StoresDefaults d) (fun _ _ => True) (r.ensureCollection t d) [] := by
  have hcreate := createParts_along (c := d) (P := StoresDefaults d) fun _ _ _ h => nomatch h
  refine Along.bind_iff.mpr (Along.ask_bind_iff.mpr ⟨(fun _ h => nomatch h), fun hit => ?_⟩)
  rcases hit with _ | cfg
  · refine Along.ask_bind_iff.mpr ⟨(fun _ h => nomatch h), fun res => ?_⟩
    rcases res with e | stored
    · change Along _ _ (if e ≠ .notFound then _ else _) _
      split_ifs with he hauto
      · trivial
      · trivial
      · obtain rfl := not_ne_iff.mp he
        refine Along.ask_bind_iff.mpr ⟨fun cfg h => ?_, fun saved => ?_⟩
        · exact ⟨(ConfigCall.saveConfig.inj h).symm, mem_cons_self⟩
        · rcases saved with e | ⟨⟩
          · trivial
          · refine Along.bind_iff.mpr ((hcreate _ _).mono fun res seen _ => ?_)
            rcases res with e | ⟨⟩
            · trivial
            · exact Along.ask_bind_iff.mpr ⟨(fun _ h => nomatch h), fun _ => trivial⟩
    · exact Along.ask_bind_iff.mpr ⟨(fun _ h => nomatch h), fun _ => trivial⟩
  · trivial

variable {ops t docs parts} in
/-- Where an `ensureCollection` is about to store settings, they are the defaults, and it has found
none. -/
private theorem saved_of_ensure {s : List (ι × Moment)} {i : ι} {r : ConfigResolver} {c : String}
    (hop : ops i = .ensure r c) {d : StoredConfig}
    (hsave : ((configPool t ops docs parts).run handleConfig s).AboutTo i (.saveConfig d)) :
    d = ConfigResolver.created c ∧ (⟨.getConfig c, .error .notFound⟩ : Obs Configs) ∈
      (((configPool t ops docs parts).run handleConfig s).threads i).seen := by
  have hfollows : (configPool t ops docs parts).Follows
      (fun i seen call => ∀ r d, ops i = .ensure r d → StoresDefaults d seen call)
      fun _ _ _ => True := by
    intro i
    change Along _ _ ((ops i).prog t) []
    cases hop : ops i with
    | ensure r d =>
      refine (r.ensureCollection_stores t d).imp (fun seen call h r' d' hop' => ?_) fun _ _ h => h
      cases hop.symm.trans hop'
      exact h
    | update svc cfg =>
      refine Along.trivial.imp (fun _ _ _ r d hop' => ?_) fun _ _ h => h
      cases hop.symm.trans hop'
  obtain ⟨k, hprog⟩ := hsave
  have halong := hfollows.run (h := handleConfig) s i
  rw [hprog] at halong
  exact halong.1 r c hop d rfl

variable {ops t docs parts c} in
/-- Where a thread has found no settings, there were none in the database at that step. -/
private theorem exists_found_none (hc : logicalName c = true) {s : List (ι × Moment)}
    (hfree : ∀ a ∈ s, a.2.fault = .none) {i : ι}
    (hseen : (⟨.getConfig c, .error .notFound⟩ : Obs Configs) ∈
      (((configPool t ops docs parts).run handleConfig s).threads i).seen) :
    ∃ s₁ m s₂, s = s₁ ++ (i, m) :: s₂ ∧
      ((configPool t ops docs parts).run handleConfig s₁).AboutTo i (.getConfig c) ∧
      ((configPool t ops docs parts).run handleConfig s₁).store.docs c = none := by
  obtain ⟨s₁, m, s₂, k, rfl, hget, hreply⟩ :=
    (Config.exists_step_of_mem_seen handleConfig hseen).resolve_left not_mem_nil
  refine ⟨s₁, m, s₂, rfl, ⟨k, hget⟩, ?_⟩
  have hm : m.fault = .none := hfree (i, m) (by simp)
  dsimp only [handleConfig] at hreply
  rw [hm, onCollection_none hc] at hreply
  cases hdocs : ((configPool t ops docs parts).run handleConfig s₁).store.docs c with
  | none => rfl
  | some cfg =>
    rw [hdocs] at hreply
    cases hreply

/-! ### Whole runs -/

private theorem CollectionConfigService.update_stores (svc : CollectionConfigService)
    (cfg : StoredConfig) : Along (fun _ _ => True) (fun res seen => ∀ eff, res = .ok eff →
      (⟨.saveConfig cfg, .ok ()⟩ : Obs Configs) ∈ seen) (svc.update t cfg) [] := by
  rw [update]
  split
  · exact fun _ h => nomatch h
  · refine Along.ask_bind_iff.mpr ⟨trivial, fun saved => ?_⟩
    rcases saved with e | ⟨⟩
    · exact fun _ h => nomatch h
    · have hcreate := createParts_along (P := fun _ _ => True) (c := cfg.name) (fun _ _ => trivial)
      refine Along.bind_iff.mpr ((hcreate _ _).mono fun res seen h => ?_)
      have hmem := h.1 mem_cons_self
      rcases res with e | ⟨⟩
      · exact fun _ h => nomatch h
      · rcases svc.cache with _ | proc
        · exact fun _ _ => hmem
        · exact Along.ask_bind_iff.mpr ⟨trivial, fun _ _ _ => mem_cons_of_mem _ hmem⟩

variable {ops t docs parts c} in
private theorem lastUpdate_of_returned {sched : List (ι × Moment)} {i : ι}
    {svc : CollectionConfigService}
    {cfg eff : StoredConfig} (hop : ops i = .update svc cfg) (hname : cfg.name = c)
    (hret : ((configPool t ops docs parts).run handleConfig sched).Returned i (.ok eff)) :
    ∃ last, lastUpdate ops c ((configPool t ops docs parts).calls handleConfig sched) =
      some last := by
  have hfollows : (configPool t ops docs parts).Follows (fun _ _ _ => True) fun i res seen =>
      ∀ svc cfg eff, ops i = .update svc cfg → res = .ok eff →
        (⟨.saveConfig cfg, .ok ()⟩ : Obs Configs) ∈ seen := by
    intro i
    change Along _ _ ((ops i).prog t) []
    cases hop : ops i with
    | ensure r d =>
      -- nothing is said of it
      refine Along.trivial.mono fun res seen _ svc cfg eff hop' => ?_
      rw [hop] at hop'
      cases hop'
    | update svc cfg =>
      refine (svc.update_stores t cfg).mono fun res seen h svc' cfg' eff hop' hres => ?_
      rw [hop] at hop'
      cases hop'
      exact h eff hres
  have hseen := (hfollows.run sched).post hret svc cfg eff hop rfl
  have hcall := (Config.mem_calls_of_mem_seen handleConfig hseen).resolve_left not_mem_nil
  have hmem : cfg ∈ ((configPool t ops docs parts).calls handleConfig sched).filterMap
      (savedByUpdate ops c) := by
    exact mem_filterMap.mpr ⟨_, hcall, by simp [savedByUpdate, hop, hname]⟩
  exact ⟨_, getLast?_eq_some_getLast (ne_nil_of_mem hmem)⟩

variable {ops t docs parts c} in
/-- What was stored last by `update`, before a step of another call and after it. -/
private theorem lastUpdate_calls_cons {s : List (ι × Moment)} {i : ι}
    (between : List (ι × Moment)) (m : Moment)
    (hget : ((configPool t ops docs parts).run handleConfig s).AboutTo i (.getConfig c)) :
    lastUpdate ops c ((configPool t ops docs parts).calls handleConfig (s ++ (i, m) :: between)) =
      (lastUpdate ops c (((configPool t ops docs parts).run handleConfig (s ++ [(i, m)])).calls
        handleConfig between)).or
        (lastUpdate ops c ((configPool t ops docs parts).calls handleConfig s)) := by
  generalize configPool t ops docs parts = pool at hget ⊢
  obtain ⟨k, hprog⟩ := hget
  have hcalls : (pool.run handleConfig s).calls handleConfig [(i, m)] = [(i, .getConfig c)] := by
    simp [Config.calls, hprog]
  rw [append_cons, Config.calls_append, lastUpdate_append, Config.calls_append, hcalls,
    lastUpdate_append, lastUpdate_singleton]
  rfl

variable {ops t docs parts c} in
/-- One more step: where it stores defaults, all that `update` has stored was stored after no
settings were found. -/
private theorem updatesKept_concat (hc : logicalName c = true) {s : List (ι × Moment)}
    {a : ι × Moment} (hfree : ∀ b ∈ s ++ [a], b.2.fault = .none)
    (hbetween : NoUpdateBetween ops c t docs parts (s ++ [a]))
    (hs : UpdatesKept ops c t docs parts s) : UpdatesKept ops c t docs parts (s ++ [a]) := by
  intro s' hs'
  rcases prefix_concat_iff.mp hs' with rfl | hs'
  · refine kept_step hc (hfree a (by simp)) (hs s prefix_rfl) ?_
    intro r c' d k hop hname hprog cfg hcfg
    obtain ⟨hd, hseen⟩ := saved_of_ensure hop ⟨k, hprog⟩
    obtain rfl : c' = c := by rw [← hname, hd]; rfl
    obtain ⟨s₁, m, s₂, rfl, hget, hnone⟩ := exists_found_none hc
      (fun b hb => hfree b (mem_append_left _ hb)) hseen
    rw [lastUpdate_calls_cons _ _ hget] at hcfg
    cases hfirst : lastUpdate ops c' ((configPool t ops docs parts).calls handleConfig s₁) with
    | some cfg' =>
      have hdocs := hs s₁ (prefix_append _ _) cfg' hfirst
      rw [hnone] at hdocs
      cases hdocs
    | none =>
      rw [hfirst, Option.or_none] at hcfg
      rw [hd]
      exact hbetween s₁ m s₂ a prefix_rfl r hop hget hnone d ⟨k, hprog⟩ cfg hcfg
  · exact hs s' hs'

/-- **Updates and defaults.** However the calls interleave, none of them failing: the settings in
the database are at every moment those that were stored last by `update` if and only if none are
stored between the two calls with which `ensureCollection` finds no settings and stores the
defaults. Where an `update` has succeeded, some were stored. -/
theorem updatesKept_iff (hc : logicalName c = true) (sched : List (ι × Moment))
    (hfree : ∀ a ∈ sched, a.2.fault = .none) :
    (UpdatesKept ops c t docs parts sched ↔ NoUpdateBetween ops c t docs parts sched) ∧
      ∀ i svc cfg eff, ops i = .update svc cfg → cfg.name = c →
        ((configPool t ops docs parts).run handleConfig sched).Returned i (.ok eff) →
        ∃ last, lastUpdate ops c ((configPool t ops docs parts).calls handleConfig sched) =
          some last := by
  refine ⟨⟨fun hkept s m between a hsa r hop hget hnone d hsave cfg hcfg => ?_, fun hbetween => ?_⟩,
    fun i svc cfg eff hop hname hret => lastUpdate_of_returned hop hname hret⟩
  · -- look at the moment right after the defaults are stored
    have hafter := hkept _ hsa cfg
    have hfault : a.2 = ⟨.none, a.2.now⟩ := by rw [← hfree a (hsa.subset (by simp))]
    have hlast := lastUpdate_calls_cons between m hget
    rw [hcfg, Option.some_or] at hlast
    have hd := (saved_of_ensure hop hsave).1
    generalize s ++ (a.1, m) :: between = before at hsave hlast hafter
    obtain ⟨k, hprog⟩ := hsave
    rw [Config.calls_append, Config.run_append] at hafter
    generalize (configPool t ops docs parts).run handleConfig before = now at hprog hafter
    have hcalls : now.calls handleConfig [a] = [(a.1, .saveConfig d)] := by
      simp [Config.calls, hprog]
    rw [hcalls, lastUpdate_append, lastUpdate_singleton, hlast, Config.run_cons,
      Config.step_of_call _ hprog, hfault, Config.run_nil, docs_handleConfig hc] at hafter
    have hname : d.name = c := by rw [hd]; rfl
    rw [← hd]
    simpa [savedByUpdate, hop, hname, eq_comm] using hafter
  · induction sched using List.reverseRecOn with
    | nil =>
      intro s hs cfg h
      rw [prefix_nil.mp hs] at h
      cases h
    | append_singleton s a ih =>
      refine updatesKept_concat hc hfree hbetween (ih (fun b hb => ?_) fun s' m between b hb => ?_)
      · exact hfree b (mem_append_left _ hb)
      · exact hbetween s' m between b (hb.trans (prefix_append _ _))

/-- An administrator stores settings for a collection before the first write to it. -/
theorem updatesKept_iff_update_first :
    let cfg : StoredConfig := { name := "deals", snapshotInterval := 7 }
    let ops : Fin 2 → ConfigOp := fun i => if i = 0 then .update {} cfg else .ensure {} "deals"
    let quiet : Moment := {}
    let sched := List.replicate 7 ((0 : Fin 2), quiet) ++ List.replicate 3 (1, quiet)
    let pool := configPool ⟨"acme", "", ""⟩ ops (fun _ => none) fun _ _ => false
    ∃ last, lastUpdate ops "deals" (pool.calls handleConfig sched) = some last := by
  intro cfg ops quiet sched pool
  have hret : (pool.run handleConfig sched).Returned 0 (.ok cfg.withDefaults) :=
    Config.returned_iff.mpr (by decide +kernel)
  have hfree : ∀ a ∈ sched, a.2.fault = .none := by decide +kernel
  have hname : logicalName "deals" = true := by decide +kernel
  exact (updatesKept_iff ops "deals" _ _ _ hname sched hfree).2 0 {} cfg _ rfl rfl hret

/-- The first write to a collection finds no settings. An administrator then stores some, and the
write replaces them by the defaults. -/
theorem update_replaced :
    let cfg : StoredConfig := { name := "deals", snapshotInterval := 7 }
    let ops : Fin 2 → ConfigOp := fun i => if i = 0 then .ensure {} "deals" else .update {} cfg
    let quiet : Moment := {}
    let sched := List.replicate 2 ((0 : Fin 2), quiet) ++ List.replicate 7 (1, quiet) ++
      List.replicate 7 (0, quiet)
    let pool := configPool ⟨"acme", "", ""⟩ ops (fun _ => none) fun _ _ => false
    (pool.run handleConfig sched).Finished ∧
      (pool.run handleConfig sched).Returned 1 (.ok cfg.withDefaults) ∧
      lastUpdate ops "deals" (pool.calls handleConfig sched) = some cfg ∧
      (pool.run handleConfig sched).store.docs "deals" = some (ConfigResolver.created "deals") ∧
      cfg ≠ ConfigResolver.created "deals" := by
  intro cfg ops quiet sched pool
  exact ⟨Config.finished_iff.mpr (by decide +kernel), Config.returned_iff.mpr (by decide +kernel),
    by decide +kernel, by decide +kernel, by decide +kernel⟩

end Letopis
