import Letopis.Diff.JsonPatch
import Letopis.Interleaving.Eval
import Letopis.Service.Read
import Letopis.Storage.Database
import Letopis.Tenant.Principal

/-!
# The read endpoints

History, current state and state at a point in time are about one collection, which the key has to
admit. The listing of collections leaves out those that the key does not admit. A flow is assembled
from the events of all collections; its endpoint does not look at the mask.

A request carries its query string as it was read: either the message of the first parameter that
is refused, or what the parameters say. Cursors are opaque to clients and stay positions here.
-/

namespace Letopis

open Interleaving

/-! ### Requests -/

/-- A query parameter that is a number. -/
inductive NumberParam where
  | absent
  | malformed
  | value (n : Int)

/-- The size of a page if the request sets none. -/
def defaultHistoryLimit : Nat := 100

/-- The largest page that can be asked for. -/
def maxHistoryLimit : Nat := 1000

/-- How a history renders its changes. -/
inductive HistoryFormat where
  | native
  | jsonPatch
  deriving DecidableEq

/-- A request to a read endpoint. -/
inductive ReadRequest where
  | history (collection entityID : String) (query : Except String (EventFilter × HistoryFormat))
  /-- Without a point in time the current state is asked for. -/
  | state (collection entityID : String) (query : Except String (Option PointInTimeQuery))
  | collections
  | flow (flowID : String) (limit : NumberParam) (cursor : Option (Option FlowPosition))

/-! ### Responses -/

/-- A change in the native format. -/
structure ChangeDTO where
  path : String
  op : ChangeOp
  /-- The value before, left out for an addition. -/
  old : Option Json
  /-- The value after, left out for a removal. -/
  new : Option Json

/-- The changes of an event in a response. -/
inductive ChangesDTO where
  | native (changes : List ChangeDTO)
  | jsonPatch (ops : List JSONPatchOp)

/-- An event in a response; what is not set is left out. -/
structure EventDTO where
  version : Nat
  op : EntityOp
  tsReceived : Time
  tsStored : Time
  changes : ChangesDTO
  authorID : Option String
  source : Option String
  tsSource : Option Time
  metadata : Option Fields
  /-- The hash-chain link, and the one before it. -/
  integrity : Option (String × Option String)

/-- The retention setting in a response, with the bound that its type has. -/
structure RetentionDTO where
  type : Setting RetentionType
  days : Option Int
  keep : Option Int

/-- The settings of a collection in a response. -/
structure ConfigDTO where
  reliabilityMode : Setting ReliabilityMode
  snapshotInterval : Int
  retention : RetentionDTO
  maxEventSizeBytes : Int
  firstEventOp : Setting FirstEventOp
  orderingMode : Setting OrderingMode
  reorderWindowMS : Option Int
  arrayKeys : List (String × String)
  plugins : List (String × StoredPlugin)

/-- An entry of the listing of collections in a response. -/
structure SummaryDTO where
  name : String
  entities : Nat
  events : Nat
  lastEventAt : Option Time
  config : ConfigDTO

/-- A node of a flow in a response. -/
inductive FlowNodeDTO where
  | activity (activityID : String) (tsReceived : Time) (causedBy refs : List FlowRef)
      (type : Option String) (data : Option Fields)
  | event (collection entityID : String) (version : Nat) (op : EntityOp) (tsReceived : Time)
      (step : Option String) (causedBy : List FlowRef)

/-- A response to a read. -/
inductive ReadResponse where
  | error (status : Nat) (message : String)
  | history (entityID : String) (events : List EventDTO) (nextCursor : Option Position)
  | state (st : CurrentState)
  | stateAt (entityID : String) (version : Int) (ts : Time) (deleted : Bool) (state : Fields)
      (snapshotVersion : Option Int) (eventsApplied : Nat)
  | collections (summaries : List SummaryDTO)
  | flow (flowID : String) (nodes : List FlowNodeDTO) (nextCursor : Option FlowPosition)

/-- A text that is left out when it is empty. -/
def ifSet (s : String) : Option String := if s = "" then none else some s

/-- A time that is left out when it is zero. -/
def Time.ifSet (t : Time) : Option Time := if t.isZero then none else some t

/-- A change in a response. -/
def Change.toDTO (ch : Change) : ChangeDTO where
  path := ch.path
  op := ch.op
  old := if ch.op = .add then none else some ch.old
  new := if ch.op = .remove then none else some ch.new

/-- Render the changes of an event. -/
def projectChanges (changes : List Change) : HistoryFormat → Option ChangesDTO
  | .native => some (.native (changes.map Change.toDTO))
  | .jsonPatch => (toJSONPatch changes).map .jsonPatch

/-- An event in a response. -/
def eventToDTO (ev : Event) (changes : ChangesDTO) : EventDTO where
  version := ev.version
  op := ev.op
  tsReceived := ev.tsReceived
  tsStored := ev.tsStored
  changes := changes
  authorID := ifSet ev.author
  source := ifSet ev.source
  tsSource := ev.tsSource.ifSet
  metadata := if ev.metadata = [] then none else some ev.metadata
  integrity := ev.integrity.map fun i => (i.hash, ifSet i.prevHash)

/-- The cursor key of an event. -/
def positionOf (ev : Event) : OrderField → Position
  | .source => { version := ev.version, ts := ev.tsSource }
  | .received => { version := ev.version, ts := ev.tsReceived }
  | .version => { version := ev.version }

/-- The body of a history. It has a cursor if the page is full. -/
def historyBody (entityID : String) (events : List Event) (f : EventFilter)
    (format : HistoryFormat) : ReadResponse :=
  match events.mapM fun ev => (projectChanges ev.changes format).map (eventToDTO ev) with
  | none => .error 400 "collection uses keyed arrays; not exportable to json-patch"
  | some out => .history entityID out
      (if 0 < f.limit ∧ events.length = f.limit then
        events.getLast?.map fun ev => positionOf ev f.orderBy
      else none)

/-- Render the settings of a collection. -/
def collectionConfigDTO (cfg : StoredConfig) : ConfigDTO where
  reliabilityMode := cfg.reliabilityMode
  snapshotInterval := cfg.snapshotInterval
  retention :=
    { type := cfg.retention.type
      days := if cfg.retention.type = .known .days then some cfg.retention.days else none
      keep := if cfg.retention.type = .known .versions then some cfg.retention.keep else none }
  maxEventSizeBytes := cfg.maxEventSizeBytes
  firstEventOp := cfg.firstEventOp
  orderingMode := cfg.ordering.mode
  reorderWindowMS :=
    if 0 < cfg.ordering.reorderWindowMS then some cfg.ordering.reorderWindowMS else none
  arrayKeys := cfg.arrayKeys
  plugins := cfg.plugins

/-- Render an entry of the listing of collections. -/
def collectionSummaryDTO (s : CollectionSummary) : SummaryDTO where
  name := s.name
  entities := s.stats.entities
  events := s.stats.events
  lastEventAt := s.stats.lastEventAt.ifSet
  config := collectionConfigDTO s.config

/-- A node of a flow in a response. -/
def flowNodeToDTO : FlowNode → FlowNodeDTO
  | .activity a => .activity a.activityID a.tsReceived a.causedBy a.refs (ifSet a.type) a.data
  | .event ⟨c, ev⟩ => .event c ev.entityID ev.version ev.op ev.tsReceived
      (ev.flow.bind fun fl => ifSet fl.step) ((ev.flow.map Flow.causedBy).getD [])

/-! ### Handlers -/

/-- Read the limit of a page. -/
def NumberParam.limit : NumberParam → Except String Nat
  | .absent => .ok defaultHistoryLimit
  | .malformed => .error "invalid limit"
  | .value n => if n ≤ 0 then .error "invalid limit" else .ok (min n.toNat maxHistoryLimit)

/-- Check the path of a request about one entity, and that the key admits the collection. -/
def pathGuard (p : Principal) (collection entityID : String) : Except (Nat × String) Unit :=
  if !logicalName collection then .error (400, "invalid collection name")
  else if entityID = "" then .error (400, "entity_id is required")
  else if !p.canAccess collection then .error (403, "collection not allowed")
  else .ok ()

/-- The history of an entity. -/
def ReadHandlers.history (collection entityID : String) (f : EventFilter) (format : HistoryFormat) :
    Prog Storage ReadResponse := do
  let f := { f with entityID }
  match ← Storage.ask (.listEvents collection f) with
  | .error _ => return .error 500 "internal error"
  | .ok events => return historyBody entityID events f format

/-- How a failed read of a state is answered. -/
def stateError : StoreErr → ReadResponse
  | .notFound => .error 404 "entity not found"
  | _ => .error 500 "internal error"

/-- The current state of an entity, or its state at a point in time. -/
def ReadHandlers.state (snapshots : Bool) (collection entityID : String) :
    Option PointInTimeQuery → Prog Storage ReadResponse
  | none => do
    match ← Storage.ask (.getCurrent collection entityID) with
    | .error e => return stateError e
    | .ok st => return .state st
  | some q => do
    match ← stateAt snapshots collection entityID q with
    | .error (.store e) => return stateError e
    | .error (.replay _) => return .error 500 "internal error"
    | .ok rs =>
      let snapVersion := if 0 < rs.snapshotVersion then some rs.snapshotVersion else none
      return .stateAt rs.entityID rs.version rs.ts rs.deleted rs.state snapVersion rs.eventsApplied

/-- The listing of collections, narrowed to what the key admits. -/
def Database.listing (db : Database) (p : Principal) : ReadResponse :=
  .collections ((db.listCollections.filter fun s => p.canAccess s.name).map collectionSummaryDTO)

/-- A page of a flow. -/
def Database.flow (db : Database) (flowID : String) (limit : NumberParam)
    (cursor : Option (Option FlowPosition)) : ReadResponse :=
  if flowID = "" then .error 400 "flow_id is required"
  else match limit.limit, cursor with
    | .error message, _ => .error 400 message
    | .ok _, some none => .error 400 "invalid cursor"
    | .ok limit, cursor =>
      let page := assembleFlow (db.flowActivities flowID) (db.flowEvents flowID) cursor.join limit
      .flow flowID (page.1.map flowNodeToDTO) page.2

/-- Answer a request from a database, without faults. -/
def ReadRequest.respond (srv : Server) (snapshots : Bool) (p : Principal) (req : ReadRequest)
    (db : Database) : ReadResponse :=
  if !p.hasScope .read then .error 403 "insufficient scope"
  else match req with
    | .history c e query =>
      match pathGuard p c e, query with
      | .error (status, message), _ => .error status message
      | .ok (), .error message => .error 400 message
      | .ok (), .ok (f, format) => ((ReadHandlers.history c e f format).eval (serve srv) db.toDb).1
    | .state c e query =>
      match pathGuard p c e, query with
      | .error (status, message), _ => .error status message
      | .ok (), .error message => .error 400 message
      | .ok (), .ok q => ((ReadHandlers.state snapshots c e q).eval (serve srv) db.toDb).1
    | .collections => db.listing p
    | .flow flowID limit cursor => db.flow flowID limit cursor

end Letopis
