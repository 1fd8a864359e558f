import Letopis.Configs.Provisioning
import Letopis.Interleaving.ReadThrough

/-!
# Settings from the cache

`get` reads the settings of a collection through the cache of its process, and `update` stores
settings and drops them from the cache. A `get` that has missed the cache and read the old settings
may put them there after the drop: later calls of `get` then return settings that were replaced
before they began.
-/

namespace Letopis

open Interleaving

/-- What a thread does with the settings. -/
inductive ConfigUse where
  | get (r : ConfigResolver) (collection : String)
  | update (svc : CollectionConfigService) (cfg : StoredConfig)

/-- What the thread runs. -/
def ConfigUse.prog (t : Tenant) : ConfigUse → Prog Configs (Except ConfigErr StoredConfig)
  | .get r collection => r.get t collection
  | .update svc cfg => svc.update t cfg

/-- Threads at work in a tenant's database. -/
def usePool {ι : Type} (t : Tenant) (uses : ι → ConfigUse) (s : ConfigStore) :
    Config ι Configs (Except ConfigErr StoredConfig) ConfigStore :=
  .initial s fun i => (uses i).prog t

section Through

variable (t : Tenant) (proc : Nat) (c : String)

/-- The effective settings of a collection, behind the cache of a process. -/
def configThrough : ReadThrough Configs ConfigStore StoredConfig where
  repo s := (s.docs c).map StoredConfig.withDefaults
  cache s := (s.cache proc (cacheKey t c)).map CacheEntry.cfg
  Told
    | ⟨.getConfig c', res⟩, v => c' = c ∧ ∃ stored, res = .ok stored ∧ stored.withDefaults = v
    | _, _ => False
  Hit
    | ⟨.cached proc' key, res⟩, v => proc' = proc ∧ key = cacheKey t c ∧ res = some v
    | _, _ => False
  Puts
    | .store proc' key cfg _, v => proc' = proc ∧ key = cacheKey t c ∧ cfg = v
    | _, _ => False
  Drops
    | .invalidate proc' key => proc' = proc ∧ key = cacheKey t c
    | _ => False
  Made
    | ⟨.saveConfig cfg, res⟩ => cfg.name = c ∧ res = .ok ()
    | _ => False

private theorem configThrough_lawful : (configThrough t proc c).Lawful handleConfig where
  told {call m s v} htold := by
    cases call with
    | getConfig c' =>
      obtain ⟨rfl, stored, hres, rfl⟩ := htold
      rw [handleConfig, eq_of_onCollection_ok hres] at hres
      cases hdocs : s.docs c' with
      | none => simp [hdocs] at hres
      | some d =>
        have heq : d = stored := by simpa [hdocs] using hres
        simp [configThrough, hdocs, heq]
    | _ => exact htold.elim
  hit {call m s v} hhit := by
    cases call with
    | cached proc' key =>
      obtain ⟨rfl, rfl, hfresh⟩ := hhit
      rw [handleConfig, ConfigStore.fresh] at hfresh
      split at hfresh
      · split_ifs at hfresh
        simpa [configThrough, *] using hfresh
      · cases hfresh
    | _ => exact hhit.elim
  cache {call m s v} hv := by
    obtain ⟨entry, hentry, rfl⟩ := Option.map_eq_some_iff.mp hv
    rcases cache_handleConfig hentry with hcache | ⟨ttl, rfl⟩
    · exact .inl (Option.map_eq_some_iff.mpr ⟨entry, hcache, rfl⟩)
    · exact .inr ⟨rfl, rfl, rfl⟩
  drop {call m s} hdrop := by
    cases call with
    | invalidate proc' key =>
      obtain ⟨rfl, rfl⟩ := hdrop
      simp [configThrough, handleConfig, ConfigStore.remember]
    | _ => exact hdrop.elim

/-- What `get` does: it stores what it has read, and returns what it has read or found. -/
theorem ConfigResolver.get_through (r : ConfigResolver) (c' : String) :
    Along (configThrough t proc c).PutsTold (fun res seen => r.proc = proc → c' = c →
      ∀ v, res = .ok v → (configThrough t proc c).Knows seen v) (r.get t c') [] := by
  refine Along.ask_bind_iff.mpr ⟨fun _ hput => hput.elim, fun hit => ?_⟩
  rcases hit with _ | cfg
  · refine Along.ask_bind_iff.mpr ⟨fun _ hput => hput.elim, fun res => ?_⟩
    rcases res with e | stored
    · exact fun _ _ _ h => nomatch h
    · refine Along.ask_bind_iff.mpr ⟨fun v hput => ?_, fun _ hproc hc v hv => ?_⟩
      · obtain ⟨-, hkey, rfl⟩ := hput
        exact ⟨_, List.mem_cons_self, cacheKey_injective t hkey, stored, rfl, rfl⟩
      · cases hv
        exact ⟨_, List.mem_cons_of_mem _ List.mem_cons_self, .inl ⟨hc, stored, rfl, rfl⟩⟩
  · intro hproc hc v hv
    cases hv
    exact ⟨_, List.mem_cons_self, .inr ⟨hproc, by rw [hc], rfl⟩⟩

private theorem CollectionConfigService.update_through (svc : CollectionConfigService)
    (cfg : StoredConfig) :
    Along (configThrough t proc c).PutsTold (fun _ _ => True) (svc.update t cfg) [] := by
  rw [update]
  split
  · trivial
  · refine Along.ask_bind_iff.mpr ⟨fun _ hput => hput.elim, fun saved => ?_⟩
    rcases saved with e | ⟨⟩
    · trivial
    · have hcreate := createParts_along (P := (configThrough t proc c).PutsTold) (c := cfg.name)
        (fun _ _ _ hput => hput.elim)
      refine Along.bind_iff.mpr ((hcreate _ _).mono fun res seen _ => ?_)
      rcases res with e | ⟨⟩
      · trivial
      · rcases svc.cache with _ | proc'
        · trivial
        · exact Along.ask_bind_iff.mpr ⟨fun _ hput => hput.elim, fun _ => trivial⟩

end Through

section Pool

variable {ι : Type} {t : Tenant} {proc : Nat} {c : String} {uses : ι → ConfigUse} {s : ConfigStore}

/-- What a thread returns from `get`. -/
def ConfigUse.Uses (proc : Nat) (c : String) (use : ConfigUse)
    (res : Except ConfigErr StoredConfig) (v : StoredConfig) : Prop :=
  ∃ r, use = .get r c ∧ r.proc = proc ∧ res = .ok v

private theorem ConfigUse.prog_through (use : ConfigUse) : Along (configThrough t proc c).PutsTold
    (fun res seen => ∀ v, use.Uses proc c res v → (configThrough t proc c).Knows seen v)
    (use.prog t) [] := by
  cases use with
  | get r' c' =>
    refine (r'.get_through t proc c c').mono fun res seen h v hv => ?_
    obtain ⟨r, hget, hr, hres⟩ := hv
    cases hget
    exact h hr rfl v hres
  | update svc cfg =>
    refine (svc.update_through t proc c cfg).mono fun _ _ _ v hv => ?_
    obtain ⟨r, hget, -⟩ := hv
    cases hget

private theorem usePool_follows :
    (usePool t uses s).Follows (fun _ => (configThrough t proc c).PutsTold)
    fun i res seen => ∀ v, (uses i).Uses proc c res v → (configThrough t proc c).Knows seen v :=
  fun i => (uses i).prog_through

variable [DecidableEq ι] {u : (configThrough t proc c).Change handleConfig (usePool t uses s)}
  {rest : List (ι × Moment)}

/-- Without late stores, a `get` that starts after the drop returns settings that the database has
held since the update. -/
theorem get_held (hlate : u.NoLatePuts rest) {j : ι} {r : ConfigResolver} (hj : uses j = .get r c)
    (hr : r.proc = proc) (hstart : (u.dropped.threads j).seen = []) {v : StoredConfig}
    (hret : (u.dropped.run handleConfig rest).Returned j (.ok v)) : u.Held rest v := by
  exact u.held_of_returned (configThrough_lawful t proc c) usePool_follows hlate hstart hret
    ⟨r, hj, hr, rfl⟩

/-- After a late store, the next `get` returns settings that the database has not held since the
update. -/
theorem get_of_late_put {a : ι × Moment} {v : StoredConfig} (hlate : u.LatePut rest a v) {j : ι}
    {r : ConfigResolver} (hj : uses j = .get r c) (hr : r.proc = proc)
    (hstart : ((u.dropped.run handleConfig rest).threads j).seen = []) {m : Moment}
    (hm : ∀ entry ∈ (u.dropped.run handleConfig (rest ++ [a])).store.cache proc (cacheKey t c),
      m.now < entry.expires) :
    (u.dropped.run handleConfig (rest ++ [a, (j, m)])).Returned j (.ok v) ∧
      ¬u.Held (rest ++ [a, (j, m)]) v := by
  obtain ⟨k', hget, hhit⟩ : ∃ k', (uses j).prog t = .call (.cached r.proc (cacheKey t c)) k' ∧
      ∀ v, k' (some v) = .ret (.ok v) := by
    rw [hj]
    exact ⟨_, rfl, fun _ => rfl⟩
  -- the entry that the late store leaves, and the next reader finds
  have hfresh : ((u.dropped.run handleConfig rest).step handleConfig a).store.fresh r.proc
      (cacheKey t c) m.now = some v := by
    obtain ⟨call, k, ha, hput, -, -⟩ := hlate
    cases call with
    | store proc' key v' ttl =>
      obtain ⟨rfl, rfl, rfl⟩ := hput
      have hcache : ((u.dropped.run handleConfig rest).step handleConfig a).store.cache r.proc
          (cacheKey t c) = some ⟨v', a.2.now + ttl⟩ := by
        rw [Config.step_of_call _ ha]
        simp [handleConfig, ConfigStore.remember, hr]
      rw [Config.run_append] at hm
      rw [ConfigStore.fresh, hcache]
      exact if_pos (hm _ (hr ▸ hcache))
    | _ => exact hput.elim
  refine hlate.returned (b := (j, m)) hstart hget (fun call hput => ?_) (fun _ _ => rfl) ?_
  · cases call with
    | store proc' key v' ttl => exact ⟨by simp, fun _ _ => rfl⟩
    | _ => exact hput.elim
  · exact (congrArg k' hfresh).trans (hhit v)

end Pool

end Letopis
