import Letopis.Domain.Collection
import Letopis.Service.Ingest
import Letopis.Tenant.Principal

/-!
# The asynchronous write path

`enqueue` accepts a write without carrying it out: it claims the event id in the idempotency store,
opens a ticket and publishes a task for the workers. A request that finds the event id claimed
replays the accept of the request that holds it, ticket and all. A request that claims the event id
and then fails to open its ticket or to publish its task gives the claim up again.

The claim is one `SET NX`, the lookup of a held one a `GET` of its own: between the two the key may
be given up or expire, and the claim is tried again, three times in all.

Tasks stay in the queues here, since nothing below looks at how workers take them out. Records and
tasks are stored as values, not as the documents they are written to and read back from.
-/

namespace Letopis

open Interleaving

/-! ### Requests, tasks and records -/

/-- What a worker needs to carry out a write. -/
structure QueuedTask where
  tenant : Tenant
  kind : Kind
  mode : ReliabilityMode
  ticketID : String
  command : IngestCommand
  deriving DecidableEq

/-- What is kept under an idempotency key: enough to replay the accept. -/
structure IdempotencyRecord where
  ticketID : String
  statusCode : Nat

/-- A ticket as it is opened. -/
structure Ticket where
  id : String
  entityCollection : String
  entityID : String

/-- The queues of tasks. -/
inductive QueueName where
  | durable
  | fast
  deriving DecidableEq

/-- The queue or the ticket store cannot be reached. -/
inductive BrokerErr where
  | unavailable
  deriving DecidableEq

/-- Why a write was not accepted. -/
inductive AcceptErr where
  | noKey
  | backpressure (retryAfter : Nat)
  | ticket (cause : BrokerErr)
  | queue (cause : BrokerErr)
  deriving DecidableEq

/-! ### Calls -/

/-- The calls of the accept path. -/
inductive AcceptCall where
  | allow (mode : ReliabilityMode)
  | setNX (key : String) (rec : IdempotencyRecord)
  | get (key : String)
  | del (key : String)
  | createTicket (t : Ticket)
  | publish (queue : QueueName) (task : QueuedTask)

/-- What comes back: the limiter says how long to wait, if at all. -/
abbrev AcceptCall.Reply : AcceptCall → Type
  | .allow _ => Option Nat
  | .setNX _ _ => Except BrokerErr Bool
  | .get _ => Except BrokerErr (Option IdempotencyRecord)
  | .del _ | .createTicket _ | .publish _ _ => Except BrokerErr Unit

/-- The interface of the accept path. -/
abbrev Accepting : Interface := ⟨AcceptCall, AcceptCall.Reply⟩

/-- Make one call. -/
abbrev Accepting.ask (call : AcceptCall) : Prog Accepting call.Reply :=
  Prog.ask (I := Accepting) call

/-- What the stores and queues hold. -/
structure Broker where
  keys : String → Option IdempotencyRecord := fun _ => none
  tickets : List Ticket := []
  /-- The tasks published to the durable queue, in order. -/
  durable : List QueuedTask := []
  /-- The tasks published to the fast queue, in order. -/
  fast : List QueuedTask := []

namespace Broker

/-- All tasks that have been published. -/
def published (s : Broker) : List QueuedTask := s.durable ++ s.fast

/-- Add a task to a queue. -/
def enqueue (s : Broker) : QueueName → QueuedTask → Broker
  | .durable, task => { s with durable := s.durable ++ [task] }
  | .fast, task => { s with fast := s.fast ++ [task] }

/-- Answer a call that does not fail. -/
def serve : (c : AcceptCall) → Broker → c.Reply × Broker
  | .allow _, s => (none, s)
  | .setNX key rec, s =>
    if (s.keys key).isSome then (.ok false, s)
    else (.ok true, { s with keys := Function.update s.keys key (some rec) })
  | .get key, s => (.ok (s.keys key), s)
  | .del key, s => (.ok (), { s with keys := Function.update s.keys key none })
  | .createTicket t, s => (.ok (), { s with tickets := s.tickets ++ [t] })
  | .publish queue task, s => (.ok (), s.enqueue queue task)

/-- The key that a call is about has expired. -/
def expire (s : Broker) : AcceptCall → Broker
  | .setNX key _ | .get key | .del key =>
    { s with keys := Function.update s.keys key none }
  | .allow _ | .createTicket _ | .publish _ _ => s

end Broker

/-- The reply of a call that fails. The limiter is local and does not. -/
def AcceptCall.failure : (c : AcceptCall) → c.Reply
  | .allow _ => none
  | .setNX _ _ | .get _ | .del _ | .createTicket _ | .publish _ _ => .error .unavailable

/-- What may happen to a call: nothing, a failure without effect, one after the effect has landed,
the expiry of its key just before, or a refusal, by the limiter with how long to wait. -/
inductive Mishap where
  | none
  | failed
  | lost
  | expired
  | refused (retryAfter : Nat)
  deriving DecidableEq

/-- Answer a call of the accept path. -/
def handleAccept : Handler Accepting Mishap Broker := fun c f s =>
  match f with
  | .none => s.serve c
  | .failed => (c.failure, s)
  | .lost => (c.failure, (s.serve c).2)
  | .expired => (s.expire c).serve c
  | .refused retryAfter =>
    match c with
    | .allow _ => (some retryAfter, s)
    | c => (c.failure, s)

/-! ### The programs -/

/-- How often a claim is tried. -/
def reserveMaxTries : Nat := 3

/-- Claim a key: `none` if it is claimed, the record of the claim that holds it otherwise. A claim
that is never won and never found counts as won. -/
def reserve (key : String) (rec : IdempotencyRecord) :
    Nat → Prog Accepting (Except BrokerErr (Option IdempotencyRecord))
  | 0 => return .ok none
  | n + 1 => do
    match ← Accepting.ask (.setNX key rec) with
    | .error e => return .error e
    | .ok true => return .ok none
    | .ok false =>
      match ← Accepting.ask (.get key) with
      | .error e => return .error e
      | .ok none => reserve key rec n
      | .ok (some existing) => return .ok (some existing)

/-- The optional collaborators of the accept path. -/
structure AsyncIngester where
  tickets : Bool := true
  idemp : Bool := true
  limiter : Bool := true
  fast : Bool := true

/-- A request to accept a write. -/
structure Accept where
  ing : AsyncIngester := {}
  principal : Option Tenant
  ticketID : String
  kind : Kind := .state
  mode : ReliabilityMode := .durable
  cmd : IngestCommand

/-- The key of an event id, unless there is no store or no event id. -/
def AsyncIngester.idempKey (ing : AsyncIngester) (cmd : IngestCommand) : Option String :=
  if ing.idemp = false ∨ cmd.eventID = "" then none else some (cmd.collection ++ "|" ++ cmd.eventID)

/-- A key in the store: tenants have their own. -/
def idempotencyKey (t : Tenant) (logical : String) : String :=
  "letopis:idem" ++ ":" ++ t.databaseName ++ ":" ++ logical

namespace Accept

variable (a : Accept) (t : Tenant)

/-- The key to claim, if the request is deduplicated. -/
def key : Option String := (a.ing.idempKey a.cmd).map (idempotencyKey t)

/-- The task of the request. -/
def task : QueuedTask := ⟨t, a.kind, a.mode, a.ticketID, a.cmd⟩

/-- The queue it goes to: without a fast queue fast degrades to durable. -/
def queue : QueueName := if a.mode = .fast ∧ a.ing.fast then .fast else .durable

/-- Publish the task. -/
def publish : Prog Accepting (Except AcceptErr Unit) := do
  match ← Accepting.ask (.publish a.queue (a.task t)) with
  | .error e => return .error (.queue e)
  | .ok () => return .ok ()

/-- Open the ticket, then publish the task. -/
def openAndPublish : Prog Accepting (Except AcceptErr Unit) := do
  if a.ing.tickets then
    match ← Accepting.ask (.createTicket ⟨a.ticketID, a.cmd.collection, a.cmd.entityID⟩) with
    | .error e => return .error (.ticket e)
    | .ok () => a.publish t
  else a.publish t

/-- Open and publish, and give up the claim on failure. -/
def deliver (claim : Option String) : Prog Accepting (Except AcceptErr IngestResult) := do
  match ← a.openAndPublish t with
  | .ok () => return .ok { entityID := a.cmd.entityID, version := 0, async := true,
                           ticket := a.ticketID }
  | .error e =>
    match claim with
    | none => return .error e
    | some key =>
      let _ ← Accepting.ask (.del key)
      return .error e

/-- Claim the event id, if there is one, and deliver or replay. -/
def claimAndDeliver : Prog Accepting (Except AcceptErr IngestResult) := do
  match a.key t with
  | none => a.deliver t none
  | some key =>
    match ← reserve key ⟨a.ticketID, 202⟩ reserveMaxTries with
    -- the store is unreachable: accept without deduplication
    | .error _ => a.deliver t none
    | .ok (some existing) =>
      return .ok { entityID := a.cmd.entityID, version := 0, async := true,
                   ticket := existing.ticketID, deduplicated := true }
    | .ok none => a.deliver t (some key)

/-- Accept a write for the workers. -/
def enqueue : Prog Accepting (Except AcceptErr IngestResult) := do
  match a.principal with
  | none => return .error .noKey
  | some t =>
    if a.ing.limiter then
      match ← Accepting.ask (.allow a.mode) with
      | some retryAfter => return .error (.backpressure retryAfter)
      | none => a.claimAndDeliver t
    else a.claimAndDeliver t

end Accept

end Letopis
