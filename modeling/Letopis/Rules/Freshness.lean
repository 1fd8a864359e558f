import Letopis.Configs.Freshness
import Letopis.Service.Rules

/-!
# Rules and settings from the cache

The engine looks up the rules of a collection through its cache as `get` does the settings: it takes
the rules from the cache if they are there, and otherwise reads and compiles them and puts them into
the cache. Changes to the rules drop them from the cache. The two caches have the same flaw, and the
same condition excludes it (`reads_after_invalidate`).
-/

namespace Letopis

open Interleaving List Function

section Through

variable {F R : Type} (lib : Library F R) (t : Tenant) (c : String)

/-- The compiled rules of a collection, behind the cache of the engine. -/
def rulesThrough : ReadThrough (RuleCalls F R) (RuleStore F R) (List (CompiledRule F R)) where
  repo s := some (compileEnabled lib (s.list c))
  cache s := (s.cache (ruleCacheKey t c)).map RuleCacheEntry.rules
  Told
    | ⟨.list c', res⟩, v => c' = c ∧ ∃ list, res = .ok list ∧ compileEnabled lib list = v
    | _, _ => False
  Hit
    | ⟨.cached key, res⟩, v => key = ruleCacheKey t c ∧ res = some v
    | _, _ => False
  Puts
    | .store key rules _, v => key = ruleCacheKey t c ∧ rules = v
    | _, _ => False
  Drops
    | .invalidate key => key = ruleCacheKey t c
    | _ => False
  Made
    | ⟨.create c' _ _, res⟩ => c' = c ∧ ∃ r, res = .ok r
    | ⟨.update c' _, res⟩ => c' = c ∧ ∃ r, res = .ok r
    | ⟨.delete c' _, res⟩ => c' = c ∧ res = .ok ()
    | _ => False

variable {lib t c} in
private theorem eq_of_onRules_ok {α : Type} {fault : Fault} {s : RuleStore F R}
    {act : Except RuleErr α × RuleStore F R} {a : α} (h : (onRules c fault s act).1 = .ok a) :
    onRules c fault s act = act := by
  unfold onRules at h ⊢
  split at h
  · cases h
  · cases fault with
    | none => rfl
    | before | after => cases h

variable {lib t c} in
private theorem cache_onRules {α : Type} {fault : Fault} {s : RuleStore F R}
    (act : Except RuleErr α × RuleStore F R) (hact : act.2.cache = s.cache) :
    (onRules c fault s act).2.cache = s.cache := by
  unfold onRules
  split
  · rfl
  · cases fault with
    | none | after => exact hact
    | before => rfl

private theorem RuleStore.cache_create (s : RuleStore F R) (r : Rule F) (newID : String) :
    (s.create c r newID).2.cache = s.cache := by
  unfold create
  dsimp only
  split_ifs <;> rfl

private theorem RuleStore.cache_update (s : RuleStore F R) (r : Rule F) :
    (s.update c r).2.cache = s.cache := by
  unfold update
  split
  · rfl
  · dsimp only
    split_ifs <;> rfl

private theorem RuleStore.cache_delete (s : RuleStore F R) (id : String) :
    (s.delete c id).2.cache = s.cache := by
  unfold delete
  split <;> rfl

variable {lib t c} in
private theorem cache_handleRules {call : RuleCall F R} {m : Moment} {s : RuleStore F R}
    {key : String × String} {entry : RuleCacheEntry F R}
    (h : (handleRules call m s).2.cache key = some entry) :
    s.cache key = some entry ∨ ∃ ttl, call = .store key entry.rules ttl := by
  cases call with
  | cached => exact .inl h
  | store key' rules ttl =>
    change update s.cache key' (some ⟨rules, m.now + ttl⟩) key = some entry at h
    by_cases hkey : key = key'
    · subst hkey
      rw [update_self] at h
      cases h
      exact .inr ⟨ttl, rfl⟩
    · rw [update_of_ne hkey] at h
      exact .inl h
  | invalidate key' =>
    change update s.cache key' none key = some entry at h
    by_cases hkey : key = key'
    · rw [hkey, update_self] at h
      cases h
    · rw [update_of_ne hkey] at h
      exact .inl h
  | list c' =>
    rw [handleRules, cache_onRules (.ok (s.list c'), s) rfl] at h
    exact .inl h
  | get c' id =>
    rw [handleRules, cache_onRules (s.get c' id, s) rfl] at h
    exact .inl h
  | create c' r newID =>
    rw [handleRules, cache_onRules _ (s.cache_create c' r newID)] at h
    exact .inl h
  | update c' r =>
    rw [handleRules, cache_onRules _ (s.cache_update c' r)] at h
    exact .inl h
  | delete c' id =>
    rw [handleRules, cache_onRules _ (s.cache_delete c' id)] at h
    exact .inl h

private theorem rulesThrough_lawful : (rulesThrough lib t c).Lawful handleRules where
  told {call m s v} htold := by
    cases call with
    | list c' =>
      obtain ⟨rfl, list, hres, rfl⟩ := htold
      rw [handleRules, eq_of_onRules_ok hres] at hres
      cases hres
      rfl
    | _ => exact htold.elim
  hit {call m s v} hhit := by
    cases call with
    | cached key =>
      obtain ⟨rfl, hfresh⟩ := hhit
      rw [handleRules, RuleStore.fresh] at hfresh
      split at hfresh
      · split_ifs at hfresh
        simpa [rulesThrough, *] using hfresh
      · cases hfresh
    | _ => exact hhit.elim
  cache {call m s v} hv := by
    obtain ⟨entry, hentry, rfl⟩ := Option.map_eq_some_iff.mp hv
    rcases cache_handleRules hentry with hcache | ⟨ttl, rfl⟩
    · exact .inl (Option.map_eq_some_iff.mpr ⟨entry, hcache, rfl⟩)
    · exact .inr ⟨rfl, rfl⟩
  drop {call m s} hdrop := by
    cases call with
    | invalidate key =>
      cases hdrop
      simp [rulesThrough, handleRules, RuleStore.remember]
    | _ => exact hdrop.elim

/-- What a lookup does: it stores what it has read, and returns what it has read or found. -/
theorem RulesEngine.rulesFor_through (e : RulesEngine) (c' : String) :
    Along (rulesThrough lib t c).PutsTold (fun res seen => c' = c → ∀ v, res = some v →
      (rulesThrough lib t c).Knows seen v) (e.rulesFor lib t c') [] := by
  refine Along.ask_bind_iff.mpr ⟨fun _ hput => hput.elim, fun hit => ?_⟩
  rcases hit with _ | rules
  · refine Along.ask_bind_iff.mpr ⟨fun _ hput => hput.elim, fun res => ?_⟩
    rcases res with e | list
    · exact fun _ _ h => nomatch h
    · refine Along.ask_bind_iff.mpr ⟨fun v hput => ?_, fun _ hc v hv => ?_⟩
      · obtain ⟨hkey, rfl⟩ := hput
        exact ⟨_, mem_cons_self, (Prod.mk.inj hkey).2, list, rfl, rfl⟩
      · cases hv
        exact ⟨_, mem_cons_of_mem _ mem_cons_self, .inl ⟨hc, list, rfl, rfl⟩⟩
  · intro hc v hv
    cases hv
    exact ⟨_, mem_cons_self, .inr ⟨by rw [hc], rfl⟩⟩

private theorem RuleService.invalidate_through {β : Type} (svc : RuleService) (c' : String)
    (seen : List (Obs (RuleCalls F R))) (res : β) :
    Along (rulesThrough lib t c).PutsTold (fun _ _ => True)
      ((svc.invalidate t c').bind fun _ => .ret res) seen := by
  unfold invalidate
  split_ifs
  · exact ⟨fun _ hput => hput.elim, fun _ => trivial⟩
  · trivial

private theorem RuleService.create_through (svc : RuleService) (c' : String) (r : Rule F)
    (newID : String) :
    Along (rulesThrough lib t c).PutsTold (fun _ _ => True) (svc.create lib t c' r newID) [] := by
  unfold create
  split
  · trivial
  · refine Along.ask_bind_iff.mpr ⟨fun _ hput => hput.elim, fun res => ?_⟩
    rcases res with e | r
    · trivial
    · exact svc.invalidate_through lib t c c' _ _

private theorem RuleService.update_through (svc : RuleService) (c' id : String) (r : Rule F) :
    Along (rulesThrough lib t c).PutsTold (fun _ _ => True) (svc.update lib t c' id r) [] := by
  unfold update
  dsimp only
  split
  · trivial
  · refine Along.ask_bind_iff.mpr ⟨fun _ hput => hput.elim, fun res => ?_⟩
    rcases res with e | r
    · trivial
    · exact svc.invalidate_through lib t c c' _ _

private theorem RuleService.delete_through (svc : RuleService) (c' id : String) :
    Along (rulesThrough lib t c).PutsTold (fun _ _ => True) (svc.delete t c' id) [] := by
  refine Along.ask_bind_iff.mpr ⟨fun _ hput => hput.elim, fun found => ?_⟩
  rcases found with e | r
  · trivial
  · refine Along.ask_bind_iff.mpr ⟨fun _ hput => hput.elim, fun res => ?_⟩
    rcases res with e | ⟨⟩
    · trivial
    · exact svc.invalidate_through lib t c c' _ _

end Through

section Pool

variable {F R ι : Type} {lib : Library F R} {t : Tenant} {c : String} {uses : ι → RuleUse F}
  {s : RuleStore F R}

/-- What a thread returns from a lookup. -/
def RuleUse.Uses (c : String) (use : RuleUse F) (res : RuleResult F R)
    (v : List (CompiledRule F R)) : Prop :=
  ∃ e, use = .lookup e c ∧ res = .rules (some v)

private theorem RuleUse.prog_through (use : RuleUse F) : Along (rulesThrough lib t c).PutsTold
    (fun res seen => ∀ v, use.Uses c res v → (rulesThrough lib t c).Knows seen v)
    (use.prog lib t) [] := by
  -- only a lookup is taken to use rules
  have hother : ∀ use : RuleUse F, (∀ e, use ≠ .lookup e c) → ∀ (res : RuleResult F R)
      (seen : List (Obs (RuleCalls F R))) v, use.Uses c res v →
      (rulesThrough lib t c).Knows seen v :=
    fun _ hne _ _ _ ⟨e, he, _⟩ => absurd he (hne e)
  cases use with
  | lookup e c' =>
    refine Along.bind_iff.mpr ((e.rulesFor_through lib t c c').mono fun res seen h v hv => ?_)
    obtain ⟨e', huse, hres⟩ := hv
    cases huse
    cases hres
    exact h rfl v rfl
  | create svc c' r newID =>
    exact Along.bind_iff.mpr ((svc.create_through lib t c c' r newID).mono fun _ _ _ =>
      hother (.create svc c' r newID) (fun _ h => nomatch h) _ _)
  | update svc c' id r =>
    exact Along.bind_iff.mpr ((svc.update_through lib t c c' id r).mono fun _ _ _ =>
      hother (.update svc c' id r) (fun _ h => nomatch h) _ _)
  | delete svc c' id =>
    exact Along.bind_iff.mpr ((svc.delete_through lib t c c' id).mono fun _ _ _ =>
      hother (.delete svc c' id) (fun _ h => nomatch h) _ _)

private theorem rulePool_follows : (rulePool lib t uses s).Follows
    (fun _ => (rulesThrough lib t c).PutsTold) fun i res seen => ∀ v, (uses i).Uses c res v →
      (rulesThrough lib t c).Knows seen v :=
  fun i => (uses i).prog_through

variable [DecidableEq ι] {u : (rulesThrough lib t c).Change handleRules (rulePool lib t uses s)}
  {rest : List (ι × Moment)}

/-- Without late stores, a lookup that starts after the drop returns rules that the database has
held since the change. -/
theorem rulesFor_held (hlate : u.NoLatePuts rest) {j : ι} {e : RulesEngine}
    (hj : uses j = .lookup e c) (hstart : (u.dropped.threads j).seen = [])
    {v : List (CompiledRule F R)}
    (hret : (u.dropped.run handleRules rest).Returned j (.rules (some v))) : u.Held rest v :=
  u.held_of_returned (rulesThrough_lawful lib t c) rulePool_follows hlate hstart hret ⟨e, hj, rfl⟩

/-- After a late store, the next lookup returns rules that the database has not held since the
change. -/
theorem rulesFor_of_late_put {a : ι × Moment} {v : List (CompiledRule F R)}
    (hlate : u.LatePut rest a v) {j : ι} {e : RulesEngine} (hj : uses j = .lookup e c)
    (hstart : ((u.dropped.run handleRules rest).threads j).seen = []) {m : Moment}
    (hm : ∀ entry ∈ (u.dropped.run handleRules (rest ++ [a])).store.cache (ruleCacheKey t c),
      m.now < entry.expiresAt) :
    (u.dropped.run handleRules (rest ++ [a, (j, m)])).Returned j (.rules (some v)) ∧
      ¬u.Held (rest ++ [a, (j, m)]) v := by
  obtain ⟨k', hget, hhit⟩ : ∃ k', (uses j).prog lib t = .call (.cached (ruleCacheKey t c)) k' ∧
      ∀ v, k' (some v) = .ret (.rules (some v)) := by
    rw [hj]
    exact ⟨_, rfl, fun _ => rfl⟩
  have hfresh : ((u.dropped.run handleRules rest).step handleRules a).store.fresh
      (ruleCacheKey t c) m.now = some v := by
    obtain ⟨call, k, ha, hput, -, -⟩ := hlate
    cases call with
    | store key v' ttl =>
      obtain ⟨rfl, rfl⟩ := hput
      have hcache : ((u.dropped.run handleRules rest).step handleRules a).store.cache
          (ruleCacheKey t c) = some ⟨v', a.2.now + ttl⟩ := by
        rw [Config.step_of_call _ ha]
        simp [handleRules, RuleStore.remember]
      rw [Config.run_append] at hm
      rw [RuleStore.fresh, hcache]
      exact if_pos (hm _ hcache)
    | _ => exact hput.elim
  refine hlate.returned (b := (j, m)) hstart hget (fun call hput => ?_) (fun _ _ => rfl) ?_
  · cases call with
    | store key v' ttl => exact ⟨by simp, fun _ _ => rfl⟩
    | _ => exact hput.elim
  · exact (congrArg k' hfresh).trans (hhit v)

end Pool

/-! ### Both caches -/

/-- **Reads after an invalidation.** In any interleaving of calls on the settings of a collection
let an update store settings and then drop them from the cache of a process. If no `get` that had
read the settings before the update puts them into the cache after the drop, every `get` of the
process that starts after the drop returns settings that the database has held since the update. If
one does, the next `get` returns them. The same goes for the rules of a collection and the cache of
the engine. -/
theorem reads_after_invalidate {ι : Type} [DecidableEq ι] (t : Tenant) (c : String) :
    (∀ (proc : Nat) (uses : ι → ConfigUse) (s : ConfigStore)
      (u : (configThrough t proc c).Change handleConfig (usePool t uses s))
      (rest : List (ι × Moment)),
      (u.NoLatePuts rest → ∀ j r v, uses j = .get r c → r.proc = proc →
        (u.dropped.threads j).seen = [] →
        (u.dropped.run handleConfig rest).Returned j (.ok v) → u.Held rest v) ∧
      ∀ a v, u.LatePut rest a v → ∀ j r m, uses j = .get r c → r.proc = proc →
        ((u.dropped.run handleConfig rest).threads j).seen = [] →
        (∀ entry ∈ (u.dropped.run handleConfig (rest ++ [a])).store.cache proc (cacheKey t c),
          m.now < entry.expires) →
        (u.dropped.run handleConfig (rest ++ [a, (j, m)])).Returned j (.ok v) ∧
          ¬u.Held (rest ++ [a, (j, m)]) v) ∧
    ∀ (F R : Type) (lib : Library F R) (uses : ι → RuleUse F) (s : RuleStore F R)
      (u : (rulesThrough lib t c).Change handleRules (rulePool lib t uses s))
      (rest : List (ι × Moment)),
      (u.NoLatePuts rest → ∀ j e v, uses j = .lookup e c →
        (u.dropped.threads j).seen = [] →
        (u.dropped.run handleRules rest).Returned j (.rules (some v)) → u.Held rest v) ∧
      ∀ a v, u.LatePut rest a v → ∀ j e m, uses j = .lookup e c →
        ((u.dropped.run handleRules rest).threads j).seen = [] →
        (∀ entry ∈ (u.dropped.run handleRules (rest ++ [a])).store.cache (ruleCacheKey t c),
          m.now < entry.expiresAt) →
        (u.dropped.run handleRules (rest ++ [a, (j, m)])).Returned j (.rules (some v)) ∧
          ¬u.Held (rest ++ [a, (j, m)]) v := by
  constructor
  · intro proc uses s u rest
    constructor
    · intro hlate j r v hj hr hstart hret
      exact get_held hlate hj hr hstart hret
    · intro a v hlate j r m hj hr hstart hm
      exact get_of_late_put hlate hj hr hstart hm
  · intro F R lib uses s u rest
    constructor
    · intro hlate j e v hj hstart hret
      exact rulesFor_held hlate hj hstart hret
    · intro a v hlate j e m hj hstart hm
      exact rulesFor_of_late_put hlate hj hstart hm

section Sample

/-- Settings before an update. -/
def oldSettings : StoredConfig := { name := "deals", snapshotInterval := 7 }

/-- Settings that an administrator sends. -/
def newSettings : StoredConfig := { name := "deals", snapshotInterval := 9 }

/-- Two readers and, between them, an administrator. -/
def sampleUses : Fin 3 → ConfigUse :=
  fun i => if i = 1 then .update {} newSettings else .get {} "deals"

/-- The tenant of the sample runs. -/
def sampleTenant : Tenant := ⟨"acme", "", ""⟩

/-- They start with nothing in the cache. -/
def samplePool : Config (Fin 3) Configs (Except ConfigErr StoredConfig) ConfigStore :=
  usePool sampleTenant sampleUses { docs := fun _ => some oldSettings }

/-- The update when nothing has happened before. -/
def firstUpdate : (configThrough sampleTenant 0 "deals").Change handleConfig samplePool where
  before := []
  x := (1, {})
  mid := List.replicate 5 (1, {})
  y := (1, {})
  made := ⟨.saveConfig newSettings, _, rfl, rfl, rfl⟩
  same := rfl
  drop := ⟨.invalidate 0 (cacheKey sampleTenant "deals"), _, rfl, rfl, rfl⟩

/-- A reader that starts after the first update. -/
theorem reads_after_invalidate_first :
    firstUpdate.Held (List.replicate 3 (2, {})) newSettings.withDefaults := by
  have hread : ∀ k, ∀ o ∈ (firstUpdate.changed.threads k).seen, ∀ v,
      ¬(configThrough sampleTenant 0 "deals").Told o v := by
    intro k o ho v htold
    by_cases hk : k = 1
    · subst hk
      cases mem_singleton.mp ho
      exact htold
    · have hseen : firstUpdate.changed.threads k = samplePool.threads k :=
        update_of_ne hk _ _
      rw [hseen] at ho
      exact absurd ho not_mem_nil
  have hlate : firstUpdate.NoLatePuts (List.replicate 3 (2, {})) := by
    rintro p a - v ⟨call, k, -, -, ⟨o, ho, htold⟩, -⟩
    exact hread a.1 o ho v htold
  have hret : (firstUpdate.dropped.run handleConfig (List.replicate 3 (2, {}))).Returned 2
      (.ok newSettings.withDefaults) := Config.returned_iff.mpr (by decide +kernel)
  exact ((reads_after_invalidate sampleTenant "deals").1 0 sampleUses _ firstUpdate _).1 hlate
    2 {} _ rfl rfl rfl hret

/-- The update after the first reader has missed the cache and read the old settings. -/
def overtakenUpdate : (configThrough sampleTenant 0 "deals").Change handleConfig samplePool where
  before := List.replicate 2 (0, {})
  x := (1, {})
  mid := List.replicate 5 (1, {})
  y := (1, {})
  made := ⟨.saveConfig newSettings, _, rfl, rfl, rfl⟩
  same := rfl
  drop := ⟨.invalidate 0 (cacheKey sampleTenant "deals"), _, rfl, rfl, rfl⟩

/-- The first reader puts the old settings into the cache after the drop, and the second one, which
starts after that, returns them. -/
theorem stale_settings_returned :
    let rest : List (Fin 3 × Moment) := [(0, {}), (2, {})]
    (overtakenUpdate.dropped.threads 2).seen = [] ∧
      (overtakenUpdate.dropped.run handleConfig rest).Returned 2 (.ok oldSettings.withDefaults) ∧
      ¬overtakenUpdate.Held rest oldSettings.withDefaults := by
  intro rest
  refine ⟨rfl, Config.returned_iff.mpr (by decide +kernel), fun hheld => ?_⟩
  exact absurd (ReadThrough.heldSince_iff.mp hheld) (by decide +kernel)

end Sample

end Letopis
