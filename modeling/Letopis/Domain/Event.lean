import Letopis.Diff.Diff

/-!
# Events, current states and snapshots

The records of the domain layer: an entity's immutable events, its materialized current state
and its snapshots, and the part of a collection's configuration that the write path reads.

A state is the entry list of a JSON object. Versions are counters that only grow by one, so
they are natural numbers; a version a client names (`expected_version`) may be any integer.
A time is its distance from Go's zero time in nanoseconds.
-/

namespace Letopis

/-- An instant, in nanoseconds since the zero time. -/
structure Time where
  /-- Nanoseconds since January 1, year 1, 00:00:00 UTC. -/
  ns : Int
  deriving DecidableEq

namespace Time

/-- The zero time, which stands for an absent one. -/
def zero : Time := ⟨0⟩

/-- `Time.IsZero`. -/
def isZero (t : Time) : Bool := t.ns = 0

end Time

/-- The entity-level lifecycle transition of an event. -/
inductive EntityOp where
  | create
  | update
  | delete
  deriving DecidableEq

/-- A cause or reference edge of a business flow. Empty fields are unset. -/
structure FlowRef where
  activityID : String := ""
  /-- The collection of a referenced event. -/
  collection : String := ""
  entityID : String := ""
  /-- The version of a referenced event; zero when it is referenced by event id. -/
  version : Int := 0
  /-- The client's id of a referenced event. -/
  eventID : String := ""
  deriving DecidableEq

/-- The optional business-flow block of an event. -/
structure Flow where
  id : String := ""
  causedBy : List FlowRef := []
  step : String := ""
  deriving DecidableEq

/-- The optional hash-chain block of an event. -/
structure Integrity where
  hash : String
  prevHash : String
  deriving DecidableEq

/-- One immutable entry in an entity's history. The version is assigned when the event is
appended. -/
structure Event where
  entityID : String
  /-- The position in the entity's history, from 1. -/
  version : Nat := 0
  op : EntityOp
  author : String := ""
  source : String := ""
  tsSource : Time := .zero
  tsReceived : Time := .zero
  tsStored : Time := .zero
  /-- The client's id of the event, empty when there is none. -/
  eventID : String := ""
  requestID : String := ""
  changes : List Change := []
  metadata : Fields := []
  flow : Option Flow := none
  integrity : Option Integrity := none
  deriving DecidableEq

/-- The values of an event are values: its changes and its metadata. -/
structure Event.Valued (ev : Event) : Prop where
  length : ev.changes.length < 2 ^ 63
  changes : ∀ ch ∈ ev.changes, ch.old.WF ∧ ch.new.WF
  metadata : (Json.obj ev.metadata).WF

/-- The materialized latest state of an entity (`cur_*`). -/
structure CurrentState where
  entityID : String
  version : Nat
  ts : Time
  /-- Whether the entity is deleted; its last state is retained then. -/
  deleted : Bool
  state : Fields
  deriving DecidableEq

/-- A materialized state pinned to a version (`sn_*`). -/
structure Snapshot where
  entityID : String
  version : Nat
  ts : Time
  deleted : Bool
  state : Fields

/-! ### Configuration -/

/-- The op recorded for a first event whose client states none. -/
inductive FirstEventOp where
  | create
  | update
  deriving DecidableEq

/-- What the failure of a plugin does to the write. -/
inductive FailMode where
  | unset
  | failOpen
  | failClosed
  deriving DecidableEq

/-- The configuration of a plugin in a collection. -/
structure PluginConfig where
  enabled : Bool
  /-- Whether its failure rejects the write. -/
  failMode : FailMode

/-- The part of a collection's effective configuration that the write path reads. -/
structure CollectionConfig where
  /-- A snapshot is taken at every multiple of this version. -/
  snapshotInterval : Int := 100
  firstEventOp : FirstEventOp := .create
  arrayKeys : List (String × String) := []
  plugins : List (String × PluginConfig) := []

end Letopis
