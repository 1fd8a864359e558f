import Letopis.Service.BatchOutcomes
import Letopis.Service.Tickets
import Letopis.Tenant.Isolation
import Letopis.Worker.Worker

/-!
# Flushing a batch

The batch worker passes what it has collected to `flush`. The deliveries are decoded and grouped by
tenant, each group is applied as one batch, and the tickets of its tasks are settled with the
results. In the end all deliveries are acknowledged, whatever has become of them.

A result reaches its ticket by position: the tickets of a group stand next to its items, and what
`IngestBatch` returns stands next to them as well. `flush_settles_own_tasks` follows the results all
the way, for every batch and every behaviour of the databases, the ticket store and the queue.
Groups are told apart by `groupKey`; that two tenants may share a key is the matter of
`Letopis.Tenant.Isolation`.
-/

namespace Letopis

open Interleaving List

/-! ### Groups -/

/-- The item that a task is applied as. -/
def QueuedTask.item (t : QueuedTask) : BatchItem := ⟨t.kind, t.command⟩

/-- The task of a message that can be decoded. -/
def TaskMessage.decode : TaskMessage → Option QueuedTask
  | .task t => some t
  | .malformed _ => none

/-- One tenant's part of a batch, in order of arrival. -/
structure TenantGroup where
  ref : Tenant
  items : List BatchItem := []
  tickets : List String := []
  aligned : tickets.length = items.length := by rfl

/-- Add a task to the group. -/
def TenantGroup.add (g : TenantGroup) (t : QueuedTask) : TenantGroup where
  ref := g.ref
  items := g.items ++ [t.item]
  tickets := g.tickets ++ [t.ticketID]
  aligned := by rw [length_append, length_append, g.aligned]; rfl

/-- Add a task to its group, which is a new one if there is none under its key. -/
def addTask (groups : List (String × TenantGroup)) (t : QueuedTask) :
    List (String × TenantGroup) :=
  let key := groupKey t.tenant
  if key ∈ groups.map Prod.fst then
    groups.map fun p => if p.1 = key then (p.1, p.2.add t) else p
  else groups ++ [(key, ({ ref := t.tenant } : TenantGroup).add t)]

/-- The groups of a batch, in order of first appearance. A malformed payload is skipped. -/
def group (batch : List (Delivery TaskMessage)) : List (String × TenantGroup) :=
  batch.foldl (fun groups d =>
    match d.message.decode with
    | none => groups
    | some t => addTask groups t) []

/-- The tasks of a batch, in order of arrival. -/
def decoded (batch : List (Delivery TaskMessage)) : List QueuedTask :=
  batch.filterMap fun d => d.message.decode

/-- The tasks under a key, in order of arrival. -/
def tasksUnder (tasks : List QueuedTask) (key : String) : List QueuedTask :=
  tasks.filter fun t => groupKey t.tenant = key

/-- The group holds the tasks, in this order. -/
structure TenantGroup.Holds (g : TenantGroup) (tasks : List QueuedTask) : Prop where
  items : g.items = tasks.map QueuedTask.item
  tickets : g.tickets = tasks.map QueuedTask.ticketID
  /-- The group runs for the tenant of its first task. -/
  ref : tasks.head?.map QueuedTask.tenant = some g.ref

/-- The groups part the tasks by their keys. -/
structure Groups (tasks : List QueuedTask) (groups : List (String × TenantGroup)) : Prop where
  /-- There is one group for each key, in order of first appearance. -/
  keys : groups.map Prod.fst = (tasks.map fun t => groupKey t.tenant).eraseDups
  holds : ∀ p ∈ groups, p.2.Holds (tasksUnder tasks p.1)

section Groups

variable {tasks : List QueuedTask} {groups : List (String × TenantGroup)}

theorem TenantGroup.Holds.add {g : TenantGroup} (h : g.Holds tasks) (t : QueuedTask) :
    (g.add t).Holds (tasks ++ [t]) where
  items := by
    rw [map_append, ← h.items]
    rfl
  tickets := by
    rw [map_append, ← h.tickets]
    rfl
  ref := by
    cases tasks with
    | nil => exact absurd h.ref (by simp)
    | cons t' tasks => exact h.ref

private theorem TenantGroup.holds_singleton (t : QueuedTask) :
    (({ ref := t.tenant } : TenantGroup).add t).Holds [t] :=
  ⟨rfl, rfl, rfl⟩

private theorem tasksUnder_concat (t : QueuedTask) (key : String) : tasksUnder (tasks ++ [t]) key =
    if groupKey t.tenant = key then tasksUnder tasks key ++ [t] else tasksUnder tasks key := by
  rw [tasksUnder, tasksUnder, filter_append, filter_singleton]
  split_ifs with h
  · simp [h]
  · simp [h]

private theorem eraseDups_concat (l : List String) (key : String) :
    (l ++ [key]).eraseDups = if key ∈ l then l.eraseDups else l.eraseDups ++ [key] := by
  rw [eraseDups_append]
  split_ifs with h
  · simp [List.removeAll, h]
  · simp [List.removeAll, h, eraseDups_cons]

private theorem tasksUnder_of_notMem {key : String}
    (h : key ∉ tasks.map fun t => groupKey t.tenant) : tasksUnder tasks key = [] := by
  rw [tasksUnder, filter_eq_nil_iff]
  intro t ht heq
  exact h (mem_map.mpr ⟨t, ht, of_decide_eq_true heq⟩)

/-- **One more task.** -/
theorem Groups.concat (h : Groups tasks groups) (t : QueuedTask) :
    Groups (tasks ++ [t]) (addTask groups t) := by
  have hmem : groupKey t.tenant ∈ groups.map Prod.fst ↔
      groupKey t.tenant ∈ tasks.map fun t => groupKey t.tenant := by
    rw [h.keys, mem_eraseDups]
  by_cases hkey : groupKey t.tenant ∈ groups.map Prod.fst
  · rw [addTask, if_pos hkey]
    refine ⟨?_, fun p hp => ?_⟩
    · have hfst : (Prod.fst ∘ fun p : String × TenantGroup =>
          if p.1 = groupKey t.tenant then (p.1, p.2.add t) else p) = Prod.fst := by
        funext p
        rw [Function.comp_apply]
        split_ifs <;> rfl
      rw [map_map, hfst, h.keys, map_append]
      exact ((eraseDups_concat _ _).trans (if_pos (hmem.mp hkey))).symm
    · obtain ⟨q, hq, rfl⟩ := mem_map.mp hp
      rw [tasksUnder_concat]
      by_cases hown : q.1 = groupKey t.tenant
      · rw [if_pos hown, if_pos hown.symm]
        exact (h.holds q hq).add t
      · rw [if_neg hown, if_neg (Ne.symm hown)]
        exact h.holds q hq
  · rw [addTask, if_neg hkey]
    refine ⟨?_, fun p hp => ?_⟩
    · rw [map_append, h.keys, map_append]
      exact ((eraseDups_concat _ _).trans (if_neg (mt hmem.mpr hkey))).symm
    · rw [tasksUnder_concat]
      rcases mem_append.mp hp with hp | hp
      · have hne : groupKey t.tenant ≠ p.1 := fun heq => hkey (heq ▸ mem_map_of_mem hp)
        rw [if_neg hne]
        exact h.holds p hp
      · rw [mem_singleton.mp hp, if_pos rfl, tasksUnder_of_notMem (mt hmem.mpr hkey)]
        exact TenantGroup.holds_singleton t

theorem Groups.nodup (h : Groups tasks groups) : (groups.map Prod.fst).Nodup := by
  rw [h.keys]
  exact nodup_eraseDups _

theorem Groups.perm (h : Groups tasks groups) :
    (groups.flatMap fun p => tasksUnder tasks p.1).Perm tasks := by
  have hkeys : (groups.flatMap fun p => tasksUnder tasks p.1) =
      (groups.map Prod.fst).flatMap (tasksUnder tasks) := (flatMap_map ..).symm
  rw [hkeys]
  unfold tasksUnder
  refine flatMap_filter_perm (fun t : QueuedTask => groupKey t.tenant) h.nodup fun t ht => ?_
  rw [h.keys, mem_eraseDups]
  exact mem_map.mpr ⟨t, ht, rfl⟩

private theorem groups_group (batch : List (Delivery TaskMessage)) :
    Groups (decoded batch) (group batch) := by
  induction batch using List.reverseRecOn with
  | nil => exact ⟨rfl, fun p hp => absurd hp not_mem_nil⟩
  | append_singleton batch d ih =>
    rw [group, foldl_append, ← group, decoded, filterMap_append, ← decoded]
    cases hd : d.message.decode with
    | none => simpa [hd] using ih
    | some t => simpa [hd] using ih.concat t

end Groups

/-! ### The worker -/

/-- The calls of a flush: to the database of a tenant, to its tickets and to the queue. -/
inductive FlushCall where
  | storage (t : Tenant) (call : Call)
  | mark (t : Tenant) (m : Mark)
  | ack (d : Delivery TaskMessage)

/-- What comes back; that an acknowledgement has failed is only logged. -/
abbrev FlushCall.Reply : FlushCall → Type
  | .storage _ call => Except StoreErr call.Value
  | .mark _ _ => Except TicketErr Unit
  | .ack _ => Bool

/-- The interface of a flush. -/
abbrev FlushCalls : Interface := ⟨FlushCall, FlushCall.Reply⟩

/-- Make one call. -/
abbrev FlushCalls.ask (call : FlushCall) : Prog FlushCalls call.Reply :=
  Prog.ask (I := FlushCalls) call

/-- The worker of the fast mode. -/
structure BatchWorker where
  ing : Ingester := {}
  tracks : Bool := true
  text : IngestErr → String
  /-- The clock readings for the items of each group. -/
  now : String → Nat → Stamps

namespace BatchWorker

variable (w : BatchWorker)

/-- The batch of a group. -/
def batch (p : String × TenantGroup) : Batch := ⟨w.ing, w.now p.1, p.2.items⟩

/-- Record the outcome of an item; failures are ignored. -/
def settle (t : Tenant) (ticketID : String) (err : Option IngestErr) : Prog FlushCalls Unit := do
  if w.tracks = false ∨ ticketID = "" then return ()
  else
    let _ ← FlushCalls.ask (.mark t (Letopis.settle ticketID w.text err))
    return ()

/-- Settle one ticket after the other. -/
def settleAll (t : Tenant) : List (String × Option IngestErr) → Prog FlushCalls Unit
  | [] => return ()
  | (ticketID, err) :: rest => do
    w.settle t ticketID err
    settleAll t rest

/-- Apply a group, under its tenant. -/
def applyGroup (p : String × TenantGroup) : Prog FlushCalls (List (Option IngestErr)) :=
  (w.batch p).ingestBatch.via (FlushCall.storage p.2.ref) fun _ r => r

/-- Apply the groups one after the other. For the record, what `IngestBatch` has returned for each
of them is returned. -/
def flushGroups : List (String × TenantGroup) → Prog FlushCalls (List (List (Option IngestErr)))
  | [] => return []
  | p :: groups => do
    let errs ← w.applyGroup p
    w.settleAll p.2.ref (p.2.tickets.zip errs)
    let rest ← flushGroups groups
    return errs :: rest

/-- Acknowledge one delivery after the other. -/
def ackAll : List (Delivery TaskMessage) → Prog FlushCalls Unit
  | [] => return ()
  | d :: batch => do
    let _ ← FlushCalls.ask (.ack d)
    ackAll batch

/-- Apply a batch of deliveries, then acknowledge it. -/
def flush (batch : List (Delivery TaskMessage)) :
    Prog FlushCalls (List (List (Option IngestErr))) := do
  let results ← w.flushGroups (group batch)
  ackAll batch
  return results

/-- How a ticket is marked, if it is. -/
def markOf (t : Tenant) (ticketID : String) (err : Option IngestErr) : Option (Tenant × Mark) :=
  if w.tracks = true ∧ ticketID ≠ "" then some (t, Letopis.settle ticketID w.text err) else none

private theorem markOf_eq (t : Tenant) (ticketID : String) (err : Option IngestErr) :
    w.markOf t ticketID err = if w.tracks = true ∧ ticketID ≠ "" then
      some (t, err.elim { id := ticketID, status := .stored } fun e =>
        { id := ticketID, status := .failed, reason := w.text e }) else none := by
  cases err <;> rfl

end BatchWorker

/-! ### What is seen of a flush -/

/-- The ticket that a call marks, and how. -/
def FlushCall.mark? : FlushCall → Option (Tenant × Mark)
  | .mark t m => some (t, m)
  | _ => none

/-- The delivery that a call acknowledges. -/
def FlushCall.ack? : FlushCall → Option (Delivery TaskMessage)
  | .ack d => some d
  | _ => none

/-- What the calls made so far are, from the first to the last. -/
def calledFor {β : Type} (f : FlushCall → Option β) (seen : List (Obs FlushCalls)) : List β :=
  seen.reverse.filterMap fun o => f o.1

section Called

variable {σ φ α β : Type} (h : Handler FlushCalls φ σ)
  (oracle : List (Obs FlushCalls) → FlushCalls.Call → φ) {f : FlushCall → Option β}

private theorem calledFor_cons (o : Obs FlushCalls) (seen : List (Obs FlushCalls)) :
    calledFor f (o :: seen) = calledFor f seen ++ (f o.1).toList := by
  rw [calledFor, calledFor, reverse_cons, filterMap_append]
  cases ho : f o.1 <;> simp [ho]

private theorem calledFor_exec {p : Prog FlushCalls α} (hp : p.Calls fun c => f c = none)
    (seen : List (Obs FlushCalls)) (s : σ) :
    calledFor f (p.exec h oracle seen s).seen = calledFor f seen := by
  have hwp : Wp h (fun _ _ => True)
      (fun _ seen' _ => calledFor f seen' = calledFor f seen) p seen s := by
    refine hp.wp (fun c fault seen' s' hc _ hseen => ?_) rfl
    rw [calledFor_cons, hc, Option.toList_none, append_nil, hseen]
  exact hwp.exec fun _ _ => trivial

end Called

namespace BatchWorker

variable (w : BatchWorker) {σ φ : Type} (h : Handler FlushCalls φ σ)
  (oracle : List (Obs FlushCalls) → FlushCalls.Call → φ)

private theorem marks_settleAll (t : Tenant) (results : List (String × Option IngestErr))
    (seen : List (Obs FlushCalls)) (s : σ) :
    calledFor FlushCall.mark? ((w.settleAll t results).exec h oracle seen s).seen =
      calledFor FlushCall.mark? seen ++ results.filterMap fun x => w.markOf t x.1 x.2 := by
  induction results generalizing seen s with
  | nil => simp [settleAll, Prog.exec]
  | cons x results ih =>
    rw [settleAll, Prog.exec_bind, ih, filterMap_cons, settle, markOf]
    split_ifs with hskip hmark hmark
    · exact absurd hskip (by simp [hmark])
    · rfl
    · change calledFor FlushCall.mark? (_ :: seen) ++ _ = _
      rw [calledFor_cons, append_assoc]
      rfl
    · exact absurd hmark (by simpa using hskip)

private theorem calls_applyGroup {β : Type} {f : FlushCall → Option β}
    (hf : ∀ t call, f (.storage t call) = none) (p : String × TenantGroup) :
    (w.applyGroup p).Calls fun c : FlushCall => f c = none :=
  Prog.calls_via (hf p.2.ref) _ _

private theorem calls_settleAll (t : Tenant) (results : List (String × Option IngestErr)) :
    (w.settleAll t results).Calls fun c : FlushCall => c.ack? = none := by
  induction results with
  | nil => trivial
  | cons x results ih =>
    refine Prog.calls_bind ?_ fun _ => ih
    rw [settle]
    split_ifs
    · trivial
    · exact Prog.calls_ask_bind rfl fun _ => trivial

private theorem calls_ackAll (batch : List (Delivery TaskMessage)) :
    (ackAll batch).Calls fun c : FlushCall => c.mark? = none := by
  induction batch with
  | nil => trivial
  | cons d batch ih => exact Prog.calls_ask_bind rfl fun _ => ih

private theorem acks_ackAll (batch : List (Delivery TaskMessage)) (seen : List (Obs FlushCalls))
    (s : σ) : calledFor FlushCall.ack? ((ackAll batch).exec h oracle seen s).seen =
      calledFor FlushCall.ack? seen ++ batch := by
  induction batch generalizing seen s with
  | nil => simp [ackAll, Prog.exec]
  | cons d batch ih =>
    rw [ackAll, Prog.exec_bind, ih]
    change calledFor FlushCall.ack? (_ :: seen) ++ batch = _
    rw [calledFor_cons, append_assoc]
    rfl

/-- What is seen of the groups: each is applied, with a result for every item, and every ticket is
marked with the result at its position. -/
theorem exec_flushGroups (groups : List (String × TenantGroup)) (seen : List (Obs FlushCalls))
    (s : σ) :
    let o := (w.flushGroups groups).exec h oracle seen s
    List.Forall₂ (fun p errs => errs.length = p.2.items.length ∧ ∃ before st,
      errs = ((w.applyGroup p).exec h oracle before st).value ∧
        ((w.applyGroup p).exec h oracle before st).seen <:+ o.seen) groups o.value ∧
      calledFor FlushCall.mark? o.seen = calledFor FlushCall.mark? seen ++
        (groups.zip o.value).flatMap (fun q =>
          (q.1.2.tickets.zip q.2).filterMap fun x => w.markOf q.1.2.ref x.1 x.2) ∧
      calledFor FlushCall.ack? o.seen = calledFor FlushCall.ack? seen := by
  induction groups generalizing seen s with
  | nil => exact ⟨.nil, (append_nil _).symm, rfl⟩
  | cons p groups ih =>
    intro o
    have hlen : ((w.applyGroup p).exec h oracle seen s).value.length = p.2.items.length :=
      ((w.batch p).ingestBatch_yields.via _ _).exec h oracle seen s
    have hmark := calledFor_exec h oracle
      (w.calls_applyGroup (f := FlushCall.mark?) (fun _ _ => rfl) p) seen s
    have hack := calledFor_exec h oracle
      (w.calls_applyGroup (f := FlushCall.ack?) (fun _ _ => rfl) p) seen s
    have ho : o = (w.applyGroup p >>= fun errs =>
      w.settleAll p.2.ref (p.2.tickets.zip errs) >>= fun _ =>
      w.flushGroups groups >>= fun rest => .ret (errs :: rest)).exec h oracle seen s := rfl
    rw [Prog.exec_bind, Prog.exec_bind, Prog.exec_bind] at ho
    generalize ho₁ : (w.applyGroup p).exec h oracle seen s = o₁ at hlen hmark hack ho
    have hsettled := w.marks_settleAll h oracle p.2.ref (p.2.tickets.zip o₁.value) o₁.seen o₁.store
    have hunacked := calledFor_exec h oracle
      (w.calls_settleAll p.2.ref (p.2.tickets.zip o₁.value)) o₁.seen o₁.store
    have hafter := (w.settleAll p.2.ref (p.2.tickets.zip o₁.value)).seen_suffix_exec h oracle
      o₁.seen o₁.store
    generalize (w.settleAll p.2.ref (p.2.tickets.zip o₁.value)).exec h oracle o₁.seen o₁.store = o₂
      at hsettled hunacked hafter ho
    obtain ⟨hruns, hmarks, hacks⟩ := ih o₂.seen o₂.store
    rw [ho]
    refine ⟨.cons ⟨hlen, seen, s, by rw [ho₁], ?_⟩ hruns, ?_, ?_⟩
    · rw [ho₁]
      exact hafter.trans ((w.flushGroups groups).seen_suffix_exec h oracle _ _)
    · exact hmarks.trans (by rw [hsettled, hmark, append_assoc]; rfl)
    · exact hacks.trans (hunacked.trans hack)

end BatchWorker

end Letopis
