import Letopis.Delivery.Task
import Letopis.Queue.Consumer

/-!
# The webhook dispatcher

The dispatcher consumes the delivery queue. For each task it makes one attempt. An attempt that
fails is followed by another one, unless there have been enough; then, or if there is no point in
trying again, the delivery is parked as a dead letter. In any case the task is acknowledged: the
next attempt is a task of its own, which a goroutine publishes after a while. If it cannot be
published it is parked.

The queue and the dead letters survive a crash. The goroutines do not.
-/

namespace Letopis

open Interleaving

/-! ### Calls -/

/-- Why an attempt to deliver failed. -/
inductive AttemptErr where
  /-- The address is one that must not be reached. -/
  | blocked (reason : String)
  /-- The endpoint did not answer, or not with a 2xx. -/
  | failed (reason : String)

/-- The calls that are made for a task. -/
inductive DispatchCall where
  | attempt (task : DeliveryTask)
  | save (tenant : Tenant) (dl : DeadLetter)
  | scheduleRetry (task : DeliveryTask)

/-- The delivery that a call is made for. -/
def DispatchCall.deliveryID : DispatchCall → String
  | .attempt task | .scheduleRetry task => task.deliveryID
  | .save _ dl => dl.deliveryID

/-- The call parks a delivery. -/
def DispatchCall.parks : DispatchCall → Bool
  | .save _ _ => true
  | .attempt _ | .scheduleRetry _ => false

/-- What a call returns. -/
abbrev DispatchCall.Reply : DispatchCall → Type
  | .attempt _ => Except AttemptErr Unit
  | .save _ _ => Except String Unit
  | .scheduleRetry _ => Unit

/-- The interface of the dispatcher. -/
abbrev Dispatching : Interface := ⟨DispatchCall, DispatchCall.Reply⟩

/-- Make one call. -/
abbrev Dispatching.ask (call : DispatchCall) : Prog Dispatching call.Reply :=
  Prog.ask (I := Dispatching) call

/-- How a call, or the publication of a retry, turns out. -/
inductive Outcome where
  | ok
  | failed (reason : String)
  | blocked (reason : String)
  /-- The effect lands, but the caller gets an error. -/
  | lost (reason : String)

/-- The call has its effect, reported or not. -/
def Outcome.landed : Outcome → Bool
  | .ok | .lost _ => true
  | .failed _ | .blocked _ => false

/-- The error that the caller gets. -/
def Outcome.error : Outcome → Option String
  | .ok => none
  | .failed reason | .blocked reason | .lost reason => some reason

/-- What the dispatcher works on, and what it holds in memory. -/
structure DispatchStore where
  /-- For the record: the deliveries that were answered with a 2xx. -/
  answered : List String := []
  dlq : List (Tenant × DeadLetter) := []
  /-- The tasks that goroutines wait to publish. -/
  retrying : List DeliveryTask := []
  /-- The tasks that could not be published, with the reason, and are about to be parked. -/
  parking : List (DeliveryTask × String) := []

/-- Answer a call of the dispatcher. -/
def handleDispatch : Handler Dispatching Outcome DispatchStore
  | .attempt task, f, st =>
    match f with
    | .ok => (.ok (), { st with answered := st.answered ++ [task.deliveryID] })
    | .blocked reason => (.error (.blocked reason), st)
    | .failed reason | .lost reason => (.error (.failed reason), st)
  | .save tenant dl, f, st =>
    (f.error.elim (.ok ()) .error,
      if f.landed then { st with dlq := st.dlq ++ [(tenant, dl)] } else st)
  | .scheduleRetry task, _, st => ((), { st with retrying := st.retrying ++ [task] })

/-! ### Handling a task -/

/-- What a dead letter gets from outside: an id and the time. -/
structure LetterStamp where
  id : String
  failedAt : Time

/-- The dead letter of a task. -/
def DeliveryTask.deadLetter (task : DeliveryTask) (reason : String) (stamp : LetterStamp) :
    DeadLetter where
  id := stamp.id
  ruleID := task.ruleID
  collection := task.collection
  deliveryID := task.deliveryID
  url := task.url
  secretRef := task.secretRef
  body := task.body
  attempts := task.attempt
  lastError := reason
  failedAt := stamp.failedAt

/-- A message on the queue: a task, or something that cannot be decoded. -/
inductive DeliveryMessage where
  | task (t : DeliveryTask)
  | malformed (key : String)
  deriving DecidableEq

/-- The key of a message: tasks are sharded by their rule. -/
def DeliveryMessage.key : DeliveryMessage → String
  | .task t => t.ruleID
  | .malformed key => key

/-- The delivery that a message is an attempt of. -/
def DeliveryMessage.deliveryID : DeliveryMessage → Option String
  | .task t => some t.deliveryID
  | .malformed _ => none

/-- The dispatcher of webhooks. -/
structure Dispatcher where
  secrets : List String
  /-- How many attempts are made for a task that does not say. -/
  maxAttempts : Int := 5
  /-- There is somewhere to park deliveries. -/
  sink : Bool := true
  shards : Nat

namespace Dispatcher

variable (disp : Dispatcher)

/-- Park a delivery. An error is logged, there is nowhere else to put it. -/
def toDLQ (task : DeliveryTask) (reason : String) (stamp : LetterStamp) : Prog Dispatching Unit :=
  if disp.sink then do
    let _ ← Dispatching.ask (.save task.tenant (task.deadLetter reason stamp))
  else return ()

/-- Make one attempt, and decide what happens next. -/
def attempt (task : DeliveryTask) (stamp : LetterStamp) : Prog Dispatching Unit := do
  if task.secretRef ∉ disp.secrets then disp.toDLQ task "unknown_secret" stamp
  else
    match ← Dispatching.ask (.attempt task) with
    | .ok () => return ()
    | .error (.blocked reason) => disp.toDLQ task reason stamp
    | .error (.failed reason) =>
      let maxAttempts := if task.maxAttempts ≤ 0 then disp.maxAttempts else task.maxAttempts
      let attemptsMade := task.attempt + 1
      if maxAttempts ≤ attemptsMade then
        disp.toDLQ { task with attempt := attemptsMade } reason stamp
      else Dispatching.ask (.scheduleRetry { task with attempt := attemptsMade })

/-- Handle a message. It is always acknowledged. -/
def process : DeliveryMessage → LetterStamp → Prog Dispatching Bool
  | .malformed _, _ => return true
  | .task task, stamp => do
    disp.attempt task stamp
    return true

/-- The dispatcher as a consumer. -/
def consumer : Consumer Dispatching Outcome DeliveryMessage LetterStamp DispatchStore where
  shardOf m := shard m.key disp.shards
  process := disp.process
  handler _ := handleDispatch

/-! ### Runs -/

/-- The queue with the dispatcher. -/
structure State where
  /-- The queue, the shard goroutines and what they work on. -/
  queue : Consumer.State Dispatching DeliveryMessage DispatchStore := { store := {} }
  /-- For the record: the tasks that were published. -/
  published : List DeliveryTask := []

/-- The steps of the dispatcher and of what is around it. -/
inductive Label where
  /-- The queue or a shard goroutine takes a step. -/
  | loop (l : Consumer.Label Outcome DeliveryMessage LetterStamp)
  | fire (i : Nat) (f : Outcome)
  /-- A retry that could not be published is parked. -/
  | park (i : Nat) (f : Outcome) (stamp : LetterStamp)
  /-- The process ends and is started again. What was held in memory is gone. -/
  | crash

/-- Replace what the dispatcher works on. -/
def State.setStore (q : State) (st : DispatchStore) : State :=
  { q with queue := { q.queue with store := st } }

/-- Add a message to the queue. -/
def publish (q : State) (m : DeliveryMessage) : State where
  queue := disp.consumer.step q.queue (.publish m)
  published :=
    match m with
    | .task t => q.published ++ [t]
    | .malformed _ => q.published

/-- One step. What cannot happen changes nothing. -/
def step (q : State) : Label → State
  | .loop (.publish m) => disp.publish q m
  | .loop l => { q with queue := disp.consumer.step q.queue l }
  | .fire i f =>
    let st := q.queue.store
    match st.retrying[i]? with
    | none => q
    | some task =>
      let q := q.setStore { st with
        retrying := st.retrying.eraseIdx i
        parking := st.parking ++
          (f.error.map fun reason => (task, "republish_failed: " ++ reason)).toList }
      if f.landed then disp.publish q (.task task) else q
  | .park i f stamp =>
    let st := q.queue.store
    match st.parking[i]? with
    | none => q
    | some (task, reason) => q.setStore { st with
        parking := st.parking.eraseIdx i
        dlq := if disp.sink && f.landed then
            st.dlq ++ [(task.tenant, task.deadLetter reason stamp)]
          else st.dlq }
  | .crash =>
    { q with queue := { q.queue with
        lanes := fun s => { q.queue.lanes s with hand := none }
        loops := fun _ => .waiting []
        store := { q.queue.store with retrying := [], parking := [] } } }

/-- Run a list of steps from left to right. -/
def run (q : State) (ls : List Label) : State := ls.foldl disp.step q

end Dispatcher

end Letopis
