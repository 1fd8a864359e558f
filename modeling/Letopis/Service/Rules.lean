import Letopis.Rules.Condition
import Letopis.Service.Config

/-!
# Rules: looking up and changing

The rules of a collection are documents of the tenant's database, kept as they were sent. The engine
that evaluates them after a write keeps the enabled rules of a collection, compiled, in a cache, for
a time. `RuleService` checks and stores what an administrator sends and drops the rules of the
collection from the cache.

As for the settings, everything happens in the database of one tenant, a step comes with the clock,
and audit records are left out. The drop is made by the thread that has changed the rules; where it
is published to other processes, each of them makes it when the message arrives.
-/

namespace Letopis

open Interleaving

/-! ### Rules -/

/-- A webhook. -/
structure Webhook where
  url : String
  /-- The timeout in milliseconds; zero if it is not set. -/
  timeoutMS : Int := 0
  /-- The number of attempts; zero if it is not set. -/
  maxAttempts : Int := 0
  secretRef : String := ""

/-- An action of a rule. -/
structure RuleAction where
  type : String
  webhook : Option Webhook := none

/-- A stored rule. -/
structure Rule (F : Type) where
  id : String := ""
  /-- Its name, of which there is one in a collection. -/
  name : String
  enabled : Bool := true
  condition : Condition F
  actions : List RuleAction
  version : Int := 0

/-- A rule ready to be evaluated. -/
structure CompiledRule (F R : Type) where
  id : String
  name : String
  pred : Predicate F R
  actions : List RuleAction

section Validate

/-- Check a webhook. -/
def validateWebhook (w : Option Webhook) (path : String) : Except RuleError Unit :=
  match w with
  | none => .error ⟨path ++ ".url", "must not be empty"⟩
  | some w =>
    if w.url = "" then .error ⟨path ++ ".url", "must not be empty"⟩
    else if w.timeoutMS < 0 then .error ⟨path ++ ".timeout_ms", "must not be negative"⟩
    else if w.maxAttempts < 0 then .error ⟨path ++ ".retry.max_attempts", "must not be negative"⟩
    else .ok ()

variable {F R : Type} (lib : Library F R)

/-- Check the actions from a position on. -/
def validateActionsFrom : List RuleAction → Nat → Except RuleError Unit
  | [], _ => .ok ()
  | a :: actions, i => do
    let path := "actions[" ++ toString i ++ "]"
    if a.type = "webhook" then validateWebhook a.webhook (path ++ ".webhook")
    else if a.type = "log" then .ok ()
    else .error ⟨path ++ ".type", "unknown action type " ++ lib.quote a.type⟩
    validateActionsFrom actions (i + 1)

/-- Check the actions of a rule. -/
def validateActions (actions : List RuleAction) : Except RuleError Unit :=
  if actions = [] then .error ⟨"actions", "must not be empty"⟩
  else validateActionsFrom lib actions 0

/-- Check a rule. -/
def validateRule (r : Rule F) : Except RuleError Unit :=
  if r.name = "" then .error ⟨"name", "must not be empty"⟩
  else
    match r.condition.compile lib with
    | .error e => .error e
    | .ok _ => validateActions lib r.actions

/-- Compile the enabled rules; one that does not compile is left out. -/
def compileEnabled (list : List (Rule F)) : List (CompiledRule F R) :=
  (list.filter (·.enabled)).filterMap fun r =>
    match r.condition.compile lib with
    | .error _ => none
    | .ok pred => some ⟨r.id, r.name, pred, r.actions⟩

end Validate

/-! ### The store -/

/-- Compiled rules that the engine has cached. -/
structure RuleCacheEntry (F R : Type) where
  rules : List (CompiledRule F R)
  expiresAt : Nat

/-- The rules in a tenant's database and the cache of the engine. -/
structure RuleStore (F R : Type) where
  /-- The rules by their ids, each with its collection. -/
  docs : List (String × String × Rule F) := []
  /-- The cache, by database and collection. -/
  cache : String × String → Option (RuleCacheEntry F R) := fun _ => none

/-- Why a call for rules failed. -/
inductive RuleErr where
  | notFound
  /-- The collection has another rule of the name. -/
  | nameConflict
  | name (e : NameErr)
  | failed
  | invalid (e : RuleError)

namespace RuleStore

variable {F R : Type} (s : RuleStore F R) (collection : String)

/-- The rules of a collection, by id. -/
def list : List (Rule F) := (s.docs.filter fun d => d.2.1 = collection).map fun d => d.2.2

/-- The rule of an id, if it is of the collection. -/
def get (id : String) : Except RuleErr (Rule F) :=
  match s.docs.lookup id with
  | some (c, r) => if c = collection then .ok r else .error .notFound
  | none => .error .notFound

/-- Another rule of the collection has the name. A unique index refuses this; it is taken to be
there. -/
def nameTaken (id name : String) : Bool :=
  s.docs.any fun d => d.1 ≠ id && d.2.1 = collection && d.2.2.name = name

/-- Store a new rule. -/
def create (r : Rule F) (newID : String) : Except RuleErr (Rule F) × RuleStore F R :=
  let r := { r with id := if r.id = "" then newID else r.id, version := 1 }
  if (s.docs.lookup r.id).isSome then (.error .failed, s)
  else if s.nameTaken collection r.id r.name then (.error .nameConflict, s)
  else (.ok r, { s with docs := SortedAssoc.insert r.id (collection, r) s.docs })

/-- Replace a rule and count the change. -/
def update (r : Rule F) : Except RuleErr (Rule F) × RuleStore F R :=
  match s.get collection r.id with
  | .error e => (.error e, s)
  | .ok old =>
    let r := { r with version := old.version + 1 }
    if s.nameTaken collection r.id r.name then (.error .nameConflict, s)
    else (.ok r, { s with docs := SortedAssoc.insert r.id (collection, r) s.docs })

/-- Remove a rule. -/
def delete (id : String) : Except RuleErr Unit × RuleStore F R :=
  match s.get collection id with
  | .error e => (.error e, s)
  | .ok _ => (.ok (), { s with docs := SortedAssoc.erase id s.docs })

/-- Set or drop an entry of the cache. -/
def remember (key : String × String) (entry : Option (RuleCacheEntry F R)) : RuleStore F R :=
  { s with cache := Function.update s.cache key entry }

/-- Rules that are in the cache and not yet expired. -/
def fresh (key : String × String) (now : Nat) : Option (List (CompiledRule F R)) :=
  match s.cache key with
  | some entry => if now < entry.expiresAt then some entry.rules else none
  | none => none

end RuleStore

/-! ### Calls -/

/-- The calls to the cache and to the rules. -/
inductive RuleCall (F R : Type) where
  | cached (key : String × String)
  | store (key : String × String) (rules : List (CompiledRule F R)) (ttl : Nat)
  | invalidate (key : String × String)
  | list (collection : String)
  | get (collection id : String)
  | create (collection : String) (r : Rule F) (newID : String)
  | update (collection : String) (r : Rule F)
  | delete (collection id : String)

/-- What a call returns. -/
abbrev RuleCall.Reply {F R : Type} : RuleCall F R → Type
  | .cached _ => Option (List (CompiledRule F R))
  | .store _ _ _ | .invalidate _ => Unit
  | .list _ => Except RuleErr (List (Rule F))
  | .get _ _ | .create _ _ _ | .update _ _ => Except RuleErr (Rule F)
  | .delete _ _ => Except RuleErr Unit

/-- The interface of the rules. -/
abbrev RuleCalls (F R : Type) : Interface := ⟨RuleCall F R, RuleCall.Reply⟩

/-- Make one call. -/
abbrev RuleCalls.ask {F R : Type} (call : RuleCall F R) : Prog (RuleCalls F R) call.Reply :=
  Prog.ask (I := RuleCalls F R) call

/-- A storage call on a collection, under a fault, as for the settings. -/
def onRules {F R α : Type} (collection : String) (fault : Fault) (s : RuleStore F R)
    (act : Except RuleErr α × RuleStore F R) : Except RuleErr α × RuleStore F R :=
  match validateLogical collection with
  | .error e => (.error (.name e), s)
  | .ok () =>
    match fault with
    | .none => act
    | .before => (.error .failed, s)
    | .after => (.error .failed, act.2)

/-- Answer a call for rules. -/
def handleRules {F R : Type} : Handler (RuleCalls F R) Moment (RuleStore F R) := fun call m s =>
  match call with
  | .cached key => (s.fresh key m.now, s)
  | .store key rules ttl => ((), s.remember key (some ⟨rules, m.now + ttl⟩))
  | .invalidate key => ((), s.remember key none)
  | .list c => onRules c m.fault s (.ok (s.list c), s)
  | .get c id => onRules c m.fault s (s.get c id, s)
  | .create c r newID => onRules c m.fault s (s.create c r newID)
  | .update c r => onRules c m.fault s (s.update c r)
  | .delete c id => onRules c m.fault s (s.delete c id)

/-! ### The programs -/

section Programs

variable {F R : Type} (lib : Library F R) (t : Tenant) (collection : String)

/-- The rules engine. -/
structure RulesEngine where
  /-- How long rules stay in the cache: thirty seconds, in nanoseconds. -/
  ttl : Nat := 30000000000

/-- The key of a collection in the cache of the engine. -/
def ruleCacheKey : String × String := (t.databaseName, collection)

/-- The compiled rules of a collection, from the cache if they are there; `none` if they could not
be read, which counts as no rules. -/
def RulesEngine.rulesFor (e : RulesEngine) :
    Prog (RuleCalls F R) (Option (List (CompiledRule F R))) := do
  let key := ruleCacheKey t collection
  match ← RuleCalls.ask (.cached key) with
  | some rules => return some rules
  | none =>
    match ← RuleCalls.ask (.list collection) with
    | .error _ => return none
    | .ok list =>
      let compiled := compileEnabled lib list
      RuleCalls.ask (.store key compiled e.ttl)
      return some compiled

/-- The service behind the rules API. -/
structure RuleService where
  /-- Whether it drops the rules that it has changed from the cache. -/
  cache : Bool := true

namespace RuleService

variable (svc : RuleService)

/-- Drop the rules of the collection from the cache. -/
def invalidate : Prog (RuleCalls F R) Unit :=
  if svc.cache then RuleCalls.ask (.invalidate (ruleCacheKey t collection)) else return ()

/-- Check and store a new rule. -/
def create (r : Rule F) (newID : String) :
    Prog (RuleCalls F R) (Except RuleErr (Option (Rule F))) := do
  match validateRule lib r with
  | .error e => return .error (.invalid e)
  | .ok () =>
    match ← RuleCalls.ask (.create collection r newID) with
    | .error e => return .error e
    | .ok r =>
      svc.invalidate t collection
      return .ok (some r)

/-- Replace a rule; the id is that of the path. -/
def update (id : String) (r : Rule F) :
    Prog (RuleCalls F R) (Except RuleErr (Option (Rule F))) := do
  let r := { r with id }
  match validateRule lib r with
  | .error e => return .error (.invalid e)
  | .ok () =>
    match ← RuleCalls.ask (.update collection r) with
    | .error e => return .error e
    | .ok r =>
      svc.invalidate t collection
      return .ok (some r)

/-- Remove a rule. It is read first, for the record of the removal. -/
def delete (id : String) : Prog (RuleCalls F R) (Except RuleErr (Option (Rule F))) := do
  match ← RuleCalls.ask (.get collection id) with
  | .error e => return .error e
  | .ok _ =>
    match ← RuleCalls.ask (.delete collection id) with
    | .error e => return .error e
    | .ok () =>
      svc.invalidate t collection
      return .ok none

end RuleService

end Programs

/-- What a thread does with the rules of a collection. -/
inductive RuleUse (F : Type) where
  | lookup (e : RulesEngine) (collection : String)
  | create (svc : RuleService) (collection : String) (r : Rule F) (newID : String)
  | update (svc : RuleService) (collection id : String) (r : Rule F)
  | delete (svc : RuleService) (collection id : String)

/-- What a thread returns. -/
inductive RuleResult (F R : Type) where
  | rules (res : Option (List (CompiledRule F R)))
  | changed (res : Except RuleErr (Option (Rule F)))

/-- What the thread runs. -/
def RuleUse.prog {F R : Type} (lib : Library F R) (t : Tenant) :
    RuleUse F → Prog (RuleCalls F R) (RuleResult F R)
  | .lookup e c => .rules <$> e.rulesFor lib t c
  | .create svc c r newID => .changed <$> svc.create lib t c r newID
  | .update svc c id r => .changed <$> svc.update lib t c id r
  | .delete svc c id => .changed <$> svc.delete t c id

/-- Threads at work in a tenant's database. -/
def rulePool {F R ι : Type} (lib : Library F R) (t : Tenant) (uses : ι → RuleUse F)
    (s : RuleStore F R) : Config ι (RuleCalls F R) (RuleResult F R) (RuleStore F R) :=
  .initial s fun i => (uses i).prog lib t

end Letopis
