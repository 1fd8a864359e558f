import Letopis.Queue.Order
import Letopis.Service.Async
import Letopis.Writers.Versions

/-!
# The durable worker

The worker consumes the durable queue: it applies each task through the ingester and acknowledges it
once the write is committed. A task that can never be applied is acknowledged as well, one whose
write failed otherwise is left pending.

Tasks are sharded by their entity. Each task runs against the database of its tenant; what it stores
there is recorded next to the databases, together with the delivery that it was stored for.
-/

namespace Letopis

open Interleaving

/-! ### Messages -/

/-- The key by which the tasks of an entity are sharded. -/
def shardKey (tenantID collection entityID : String) : String :=
  tenantID ++ "|" ++ collection ++ "|" ++ entityID

/-- A message on the queue: a task, or something that cannot be decoded. -/
inductive TaskMessage where
  | task (t : QueuedTask)
  | malformed (key : String)
  deriving DecidableEq

/-- The entity that a task writes to. -/
structure TaskEntity where
  tenant : Tenant
  collection : String
  entityID : String
  deriving DecidableEq

namespace TaskMessage

/-- The key of a message. -/
def key : TaskMessage → String
  | .task t => shardKey t.tenant.id t.command.collection t.command.entityID
  | .malformed key => key

/-- The entity that a message is about; a message that cannot be decoded is about its key. -/
def entity : TaskMessage → TaskEntity ⊕ String
  | .task t => .inl ⟨t.tenant, t.command.collection, t.command.entityID⟩
  | .malformed key => .inr key

/-- The database that a message is for. -/
def database : TaskMessage → String
  | .task t => t.tenant.databaseName
  | .malformed _ => ""

theorem key_eq_of_entity_eq {m m' : TaskMessage} (h : m.entity = m'.entity) : m.key = m'.key := by
  cases m <;> cases m' <;> simp_all [entity, key]

end TaskMessage

/-! ### Handling a task -/

/-- The write can never succeed. -/
def IngestErr.isPermanent : IngestErr → Bool
  | .invalidDiff _ | .resultNotObject | .failClosed _ _ => true
  | .versionConflict | .duplicateEvent | .unknownKind _ | .appendFailed .. | .appendBatchFailed ..
  | .store _ => false

/-- The delivery is to be acknowledged: the write is done, or can never be. -/
def settles : Except IngestErr IngestResult → Bool
  | .ok _ => true
  | .error e => e.isPermanent

/-- The databases of the tenants, and what was stored there for which delivery. -/
structure WorkerStore where
  dbs : String → Db
  /-- For the record: the events that were stored, in order. -/
  stored : List (Delivery TaskMessage × Event) := []

/-- The event that a call stores. -/
def Call.inserts (f : Fault) (db : Db) : Call → Option Event
  | .insertEvent c ev =>
    if f ≠ .before ∧ db.VersionFree c ev ∧ db.EventIDFree c ev then some ev else none
  | _ => none

/-- The worker of the durable mode. -/
structure Worker where
  /-- What errors of the database server read like. -/
  srv : Server := .mongo
  ing : Ingester := {}
  shards : Nat

namespace Worker

variable (wk : Worker)

/-- Handle a message. -/
def process : TaskMessage → Stamps → Prog Storage Bool
  | .malformed _, _ => return true
  | .task t, now =>
    match t.kind with
    | .other _ => return true
    | kind => do return settles (← applyOne wk.ing now kind t.command)

/-- Answer a call that is made for a delivery, from the database of its tenant. -/
def handler (d : Delivery TaskMessage) : Handler Storage Fault WorkerStore := fun c f st =>
  let n := d.message.database
  let reply := handle wk.srv c f (st.dbs n)
  (reply.1, {
    dbs := Function.update st.dbs n reply.2
    stored := st.stored ++ ((Call.inserts f (st.dbs n) c).map fun ev => (d, ev)).toList })

/-- The worker as a consumer. -/
def consumer : Consumer Storage Fault TaskMessage Stamps WorkerStore where
  shardOf m := shard m.key wk.shards
  process := wk.process
  handler := wk.handler

/-- The queue and the worker before anything is published. -/
def initial (dbs : String → Db) : Consumer.State Storage TaskMessage WorkerStore :=
  { store := { dbs } }

/-- The tasks of an entity have taken effect in the order in which they were published. -/
def TasksInOrder (w : Consumer.State Storage TaskMessage WorkerStore) : Prop :=
  ∀ x ∈ w.store.stored, ∀ y ∈ w.store.stored, x.1.message.entity = y.1.message.entity →
    x.1.id < y.1.id → x.2.version < y.2.version

instance (w : Consumer.State Storage TaskMessage WorkerStore) : Decidable (TasksInOrder w) :=
  inferInstanceAs (Decidable (∀ x ∈ w.store.stored, ∀ y ∈ w.store.stored, _ → _ → _))

end Worker

end Letopis
