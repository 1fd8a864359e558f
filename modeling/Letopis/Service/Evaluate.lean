import Letopis.Delivery.Passes
import Letopis.ForMathlib.Except
import Letopis.Interleaving.Eval
import Letopis.Plugin.HashChain
import Letopis.Rules.Meaning
import Letopis.Service.Async

/-!
# Evaluating rules

After a write the engine evaluates the rules of the collection on the event and fires the actions of
those that match: a `log` action writes a line, a `webhook` action hands a request to the publisher,
and an action of any other type goes to a plugin. What goes wrong is logged and stops nothing.

A rule is stored by `RuleService` only, which checks it first. So every stored rule compiles, and
the engine fires the actions of exactly those enabled rules whose condition holds of the event
(`stored_rules_fire`). The check knows no types of actions but the two: the engine has a branch for
plugins, but none of the rules gets there.

The level of a line and the counter of matches are left out.
-/

namespace Letopis

open Interleaving List

/-! ### Firing -/

/-- The calls of the engine when rules match. -/
inductive FireCall where
  | log (collection ruleID ruleName : String) (ev : Event)
  | publish (ev : Event) (req : DeliveryRequest)
  /-- Run the plugin for a type of actions, if there is one. -/
  | execute (type : String) (ev : Event)

/-- What a call returns. -/
abbrev FireCall.Reply : FireCall → Type
  | .log _ _ _ _ => Unit
  | .publish _ _ => Except BrokerErr Unit
  | .execute _ _ => Option (Except String Unit)

/-- The interface of the engine when rules match. -/
abbrev Firing : Interface := ⟨FireCall, FireCall.Reply⟩

/-- What conditions are evaluated on. -/
def toEvalEvent (ev : Event) : EvalEvent :=
  ⟨ev.op.text, ev.entityID, ev.author, ev.source, ev.changes⟩

section Evaluate

variable {F R : Type} (lib : Library F R) (pub : Bool) (collection : String) (ev : Event)

/-- Hand the event to the publisher. Without one, or without a configuration, nothing is sent. -/
def fireWebhook (r : CompiledRule F R) (a : RuleAction) : Prog Firing Unit :=
  match a.webhook with
  | none => return ()
  | some w =>
    if pub then do
      let _ ← Prog.ask (I := Firing) (.publish ev ⟨collection, r.id, r.name, w⟩)
    else return ()

/-- Run one action of a rule that matches. -/
def fire (r : CompiledRule F R) (a : RuleAction) : Prog Firing Unit :=
  if a.type = "log" then Prog.ask (I := Firing) (.log collection r.id r.name ev)
  else if a.type = "webhook" then fireWebhook pub collection ev r a
  else do
    let _ ← Prog.ask (I := Firing) (.execute a.type ev)

/-- Run the actions of a rule that matches. -/
def fireAll (r : CompiledRule F R) : List RuleAction → Prog Firing Unit
  | [] => return ()
  | a :: actions => do
    fire pub collection ev r a
    fireAll r actions

/-- `Evaluate`, from the compiled rules on. -/
def evaluate : List (CompiledRule F R) → Prog Firing Unit
  | [] => return ()
  | r :: rules => do
    if r.pred.eval lib (toEvalEvent ev) then fireAll pub collection ev r r.actions
    evaluate rules

end Evaluate

/-! ### Stored rules -/

section Stored

variable {F R : Type} (lib : Library F R)

/-- All stored rules pass the check. -/
def RulesOk (s : RuleStore F R) : Prop := ∀ d ∈ s.docs, validateRule lib d.2.2 = .ok ()

/-- A rule is stored only if it was checked. -/
def StoresChecked : RuleCall F R → Prop
  | .create _ r _ | .update _ r => validateRule lib r = .ok ()
  | _ => True

variable {lib} {s : RuleStore F R}

theorem RulesOk.insert (h : RulesOk lib s) {c : String} {r : Rule F}
    (hr : validateRule lib r = .ok ()) :
    RulesOk lib { s with docs := SortedAssoc.insert r.id (c, r) s.docs } := by
  intro d hd
  rcases SortedAssoc.mem_insert hd with rfl | hd
  · exact hr
  · exact h d hd

theorem RulesOk.onRules {α : Type} (h : RulesOk lib s) {act : Except RuleErr α × RuleStore F R}
    (hact : RulesOk lib act.2) (c : String) (f : Fault) : RulesOk lib (onRules c f s act).2 := by
  unfold Letopis.onRules
  split
  · exact h
  · cases f with
    | none => exact hact
    | before => exact h
    | after => exact hact

/-- A call keeps the stored rules checked. -/
theorem RulesOk.handle (h : RulesOk lib s) {call : RuleCall F R} (hcall : StoresChecked lib call)
    (m : Moment) : RulesOk lib (handleRules call m s).2 := by
  cases call with
  | cached key => exact h
  | store key rules ttl => exact h
  | invalidate key => exact h
  | list c => exact h.onRules h c _
  | get c id => exact h.onRules h c _
  | create c r newID =>
    refine h.onRules ?_ c _
    dsimp only [RuleStore.create]
    generalize (if r.id = "" then newID else r.id) = id
    split_ifs
    · exact h
    · exact h
    · exact h.insert (r := { r with id, version := 1 }) hcall
  | update c r =>
    refine h.onRules ?_ c _
    unfold RuleStore.update
    split
    · exact h
    · rename_i old _
      dsimp only
      split_ifs
      · exact h
      · exact h.insert (r := { r with version := old.version + 1 }) hcall
  | delete c id =>
    refine h.onRules ?_ c _
    unfold RuleStore.delete
    split
    · exact h
    · exact fun d hd => h d (mem_filter.mp hd).1

open Prog in
private theorem RuleUse.storesChecked (t : Tenant) (use : RuleUse F) :
    (use.prog lib t : Prog (RuleCalls F R) (RuleResult F R)).Calls (StoresChecked lib) := by
  have hinvalidate : ∀ (svc : RuleService) (c : String) (a : Except RuleErr (Option (Rule F))),
      (svc.invalidate t c >>= fun _ => .ret a : Prog (RuleCalls F R) _).Calls
        (StoresChecked lib) := by
    intro svc c a
    refine calls_bind ?_ fun _ => trivial
    unfold RuleService.invalidate
    split_ifs
    · exact ⟨trivial, fun _ => trivial⟩
    · trivial
  cases use with
  | lookup e c =>
    refine calls_bind (calls_ask_bind trivial fun hit => ?_) fun _ => trivial
    rcases hit with _ | rules
    · refine calls_ask_bind trivial fun res => ?_
      rcases res with err | list
      · trivial
      · exact calls_ask_bind trivial fun _ => trivial
    · trivial
  | create svc c r newID =>
    refine calls_bind ?_ fun _ => trivial
    unfold RuleService.create
    split
    · trivial
    · rename_i hr
      refine calls_ask_bind hr fun res => ?_
      rcases res with err | r
      · trivial
      · exact hinvalidate svc c _
  | update svc c id r =>
    refine calls_bind ?_ fun _ => trivial
    unfold RuleService.update
    dsimp only
    split
    · trivial
    · rename_i hr
      refine calls_ask_bind hr fun res => ?_
      rcases res with err | r
      · trivial
      · exact hinvalidate svc c _
  | delete svc c id =>
    refine calls_bind (calls_ask_bind trivial fun found => ?_) fun _ => trivial
    rcases found with err | r
    · trivial
    · refine calls_ask_bind trivial fun res => ?_
      rcases res with err | ⟨⟩
      · trivial
      · exact hinvalidate svc c _

/-- The actions that pass the check. -/
def RuleAction.Known (a : RuleAction) : Prop :=
  a.type = "log" ∨ a.type = "webhook" ∧ ∃ w, a.webhook = some w ∧ w.url ≠ ""

private theorem known_of_validateActionsFrom {actions : List RuleAction} {i : Nat}
    (h : validateActionsFrom lib actions i = .ok ()) : ∀ a ∈ actions, a.Known := by
  induction actions generalizing i with
  | nil => exact fun a ha => absurd ha not_mem_nil
  | cons b actions ih =>
    rw [validateActionsFrom] at h
    split_ifs at h with hwebhook hlog
    · obtain ⟨⟨⟩, hb, hrest⟩ := Except.bind_eq_ok_iff.mp h
      refine forall_mem_cons.mpr ⟨.inr ⟨hwebhook, ?_⟩, ih hrest⟩
      cases hw : b.webhook with
      | none => simp [validateWebhook, hw] at hb
      | some w =>
        refine ⟨w, rfl, fun hurl => ?_⟩
        simp [validateWebhook, hw, hurl] at hb
    · exact forall_mem_cons.mpr ⟨.inl hlog, ih h⟩
    · cases h

/-- A rule that passes the check compiles to its meaning. -/
theorem of_validateRule {r : Rule F} (h : validateRule lib r = .ok ()) :
    (∃ p : Predicate F R, r.condition.compile lib = .ok p ∧
      ∀ e, p.eval lib e = r.condition.holds lib e) ∧ ∀ a ∈ r.actions, a.Known := by
  unfold validateRule at h
  split_ifs at h with hname
  split at h
  · cases h
  · rename_i p hp
    refine ⟨r.condition.exists_compileAt_of_proper lib
      (r.condition.forall_proper_of_compileAt lib hp), ?_⟩
    unfold validateActions at h
    split_ifs at h
    exact known_of_validateActionsFrom h

section Fires

variable (c : String) (ev : Event)

/-- What an action of a rule amounts to. -/
def RuleAction.fires (r : Rule F) (a : RuleAction) : List FireCall :=
  if a.type = "log" then [.log c r.id r.name ev]
  else a.webhook.toList.map fun w => .publish ev ⟨c, r.id, r.name, w⟩

open Prog in
private theorem fireAll_makes (r : Rule F) (p : Predicate F R) {actions : List RuleAction}
    (h : ∀ a ∈ actions, a.Known) :
    (fireAll true c ev ⟨r.id, r.name, p, r.actions⟩ actions).Makes
      (actions.flatMap (RuleAction.fires c ev r)) := by
  induction actions with
  | nil => rfl
  | cons a actions ih =>
    obtain ⟨ha, hrest⟩ := forall_mem_cons.mp h
    refine makes_bind ?_ fun _ => ih hrest
    obtain hlog | ⟨hwebhook, w, hw, -⟩ := ha
    · rw [fire, RuleAction.fires, if_pos hlog, if_pos hlog]
      exact ⟨[], rfl, fun _ => rfl⟩
    · have hne : a.type ≠ "log" := by simp [hwebhook]
      rw [fire, RuleAction.fires, if_neg hne, if_neg hne, if_pos hwebhook, fireWebhook, hw]
      exact ⟨[], rfl, fun _ => rfl⟩

open Prog in
private theorem evaluate_makes {list : List (Rule F)}
    (h : ∀ r ∈ list, validateRule lib r = .ok ()) :
    (evaluate lib true c ev (compileEnabled lib list)).Makes
      ((list.filter fun r => r.enabled && r.condition.holds lib (toEvalEvent ev)).flatMap fun r =>
        r.actions.flatMap (RuleAction.fires c ev r)) := by
  induction list with
  | nil => rfl
  | cons r list ih =>
    obtain ⟨hr, hlist⟩ := forall_mem_cons.mp h
    obtain ⟨⟨p, hp, heval⟩, hactions⟩ := of_validateRule hr
    cases henabled : r.enabled with
    | false => simpa [compileEnabled, henabled] using ih hlist
    | true =>
      have hcompile : compileEnabled lib (r :: list) =
          ⟨r.id, r.name, p, r.actions⟩ :: compileEnabled lib list := by
        simp [compileEnabled, henabled, hp]
      rw [hcompile, evaluate, heval]
      cases hholds : r.condition.holds lib (toEvalEvent ev) with
      | false => simpa [henabled, hholds] using ih hlist
      | true =>
        rw [filter_cons_of_pos (by simp [henabled, hholds]), flatMap_cons]
        exact makes_bind (fireAll_makes c ev r p hactions) fun _ => ih hlist

end Fires

section Runs

variable {ι : Type} [DecidableEq ι] (t : Tenant) (uses : ι → RuleUse F) (sched : List (ι × Moment))

variable (lib) in
private theorem rulesOk_run :
    RulesOk lib ((rulePool lib t uses ({} : RuleStore F R)).run handleRules sched).store := by
  let ledger : Ledger ι (RuleCalls F R) (RuleStore F R) := ⟨RulesOk lib, fun _ _ _ => True⟩
  have hsound : ledger.Sound handleRules (fun _ _ c => StoresChecked lib c)
      fun _ _ _ _ _ => True :=
    fun _ _ _ m _ hcall _ h _ => ⟨h.handle hcall m, trivial, fun _ _ _ => trivial⟩
  have hfollows : (rulePool lib t uses ({} : RuleStore F R)).Follows
      (fun _ _ c => StoresChecked lib c) fun _ _ _ => True :=
    fun i => (RuleUse.storesChecked t (uses i)).along []
  have hempty : RulesOk lib ({} : RuleStore F R) := fun d hd => absurd hd not_mem_nil
  exact (Ledger.Holds.run hsound hfollows (Ledger.holds_initial hempty _) Config.meets_true).inv

/-- **A checked rule is an evaluated rule.** Whatever threads create, change, remove and look up
rules, however their calls interleave and fail: on an event the engine makes exactly the calls of
the enabled rules of the collection whose condition holds, in the order of the rules and of their
actions, and whatever these calls are answered. Each action logs a line or publishes a webhook. -/
theorem stored_rules_fire (c : String) (ev : Event) :
    let s := ((rulePool lib t uses ({} : RuleStore F R)).run handleRules sched).store
    (evaluate lib true c ev (compileEnabled lib (s.list c))).Makes
        (((s.list c).filter fun r => r.enabled && r.condition.holds lib (toEvalEvent ev)).flatMap
          fun r => r.actions.flatMap (RuleAction.fires c ev r)) ∧
      ∀ r ∈ s.list c, ∀ a ∈ r.actions, (RuleAction.fires c ev r a).length = 1 := by
  intro s
  have hok := rulesOk_run lib t uses sched
  have hlist : ∀ r ∈ s.list c, validateRule lib r = .ok () := by
    intro r hr
    obtain ⟨d, hd, rfl⟩ := mem_map.mp hr
    exact hok d (mem_filter.mp hd).1
  refine ⟨evaluate_makes c ev hlist, fun r hr a ha => ?_⟩
  obtain hlog | ⟨hwebhook, w, hw, -⟩ := (of_validateRule (hlist r hr)).2 a ha
  · simp [RuleAction.fires, hlog]
  · simp [RuleAction.fires, hwebhook, hw]

end Runs

end Stored

/-! ### Telling other processes -/

section Invalidate

variable {F R : Type} (t : Tenant) (c : String)

/-- The message that a change of rules is announced by. -/
def invalidateMsg : String := t.databaseName ++ "|" ++ c

/-- Split a message at the first bar. Nothing may be missing on either side. -/
def parseInvalidateMsg (payload : String) : Option (String × String) :=
  let db := payload.toList.takeWhile (· ≠ '|')
  let rest := (payload.toList.dropWhile (· ≠ '|')).tail
  if db = [] ∨ rest = [] then none else some (String.ofList db, String.ofList rest)

/-- What another process does with a message. -/
def RuleStore.onInvalidate (s : RuleStore F R) (payload : String) : RuleStore F R :=
  match parseInvalidateMsg payload with
  | some key => s.remember key none
  | none => s

private theorem parse_invalidateMsg_iff :
    parseInvalidateMsg (invalidateMsg t c) = some (ruleCacheKey t c) ↔
      '|' ∉ t.databaseName.toList ∧ c ≠ "" := by
  have hlist : (invalidateMsg t c).toList = t.databaseName.toList ++ '|' :: c.toList := by
    simp [invalidateMsg]
  constructor
  · intro h
    simp only [parseInvalidateMsg, Option.ite_none_left_eq_some, not_or, Option.some.injEq,
      ruleCacheKey, Prod.mk.injEq] at h
    obtain ⟨⟨-, hrest⟩, hname, hc⟩ := h
    have hnames := congrArg String.toList hname
    have hcs := congrArg String.toList hc
    rw [String.toList_ofList] at hnames hcs
    refine ⟨fun hbar => ?_, fun h => hrest (hcs.trans (by simp [h]))⟩
    rw [← hnames] at hbar
    have hne := mem_takeWhile_imp hbar
    exact of_decide_eq_true hne rfl
  · rintro ⟨hbar, hc⟩
    have hdb : t.databaseName ≠ "" := t.databaseName_ne_empty
    have hfree : ∀ x ∈ t.databaseName.toList, decide (x ≠ '|') = true :=
      fun x hx => decide_eq_true fun heq => hbar (heq ▸ hx)
    simp only [parseInvalidateMsg, hlist, takeWhile_append_of_pos hfree,
      dropWhile_append_of_pos hfree]
    simp [hdb, hc, ruleCacheKey]

/-- **Announced changes.** A process that gets the message for a collection drops its rules from the
cache, whatever is there, exactly if the name of the database has no bar and the name of the
collection is not empty. -/
theorem invalidate_reaches_iff :
    (∀ s : RuleStore F R, (s.onInvalidate (invalidateMsg t c)).cache (ruleCacheKey t c) = none) ↔
      '|' ∉ t.databaseName.toList ∧ c ≠ "" := by
  rw [← parse_invalidateMsg_iff]
  constructor
  · intro h
    have hfull := h { cache := fun _ => some ⟨[], 0⟩ }
    unfold RuleStore.onInvalidate at hfull
    split at hfull
    · rename_i key hkey
      by_contra hne
      have hother : ruleCacheKey t c ≠ key := fun heq => hne (heq ▸ hkey)
      simp [RuleStore.remember, Function.update_of_ne hother] at hfull
    · cases hfull
  · intro h s
    rw [RuleStore.onInvalidate, h]
    exact Function.update_self ..

end Invalidate

end Letopis
