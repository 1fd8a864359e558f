import Letopis.Domain.Event
import Mathlib.Data.List.Sort

/-!
# Business flows

A flow is what carries its id: activities, which belong to no entity, and events of any collection.
`assembleFlow` merges them into one sequence by the time they were received and cuts a page out
of it.
-/

namespace Letopis

/-- A business event that is not a change of an entity. -/
structure Activity where
  activityID : String
  type : String := ""
  flowID : String
  causedBy : List FlowRef := []
  refs : List FlowRef := []
  tsReceived : Time := .zero
  data : Option Fields := none

/-- An event with the collection it comes from. -/
structure FlowEvent where
  collection : String
  event : Event

/-- A node of a flow: an activity or an event. -/
inductive FlowNode where
  | activity (a : Activity)
  | event (ev : FlowEvent)

/-- A position in a flow: the node that a page ends with. -/
structure FlowPosition where
  ts : Time
  id : String

namespace FlowNode

/-- When the node was received. -/
def ts : FlowNode → Time
  | .activity a => a.tsReceived
  | .event ev => ev.event.tsReceived

/-- What tells nodes that were received at the same time apart. -/
def nodeID : FlowNode → String
  | .activity a => "a|" ++ a.activityID
  | .event ev =>
    "e|" ++ ev.collection ++ "|" ++ ev.event.entityID ++ "|" ++ toString ev.event.version

/-- The node comes strictly after a position. -/
def after (n : FlowNode) (p : FlowPosition) : Bool :=
  p.ts.ns < n.ts.ns || (p.ts.ns = n.ts.ns && p.id < n.nodeID)

/-- The position of the node. -/
def position (n : FlowNode) : FlowPosition := ⟨n.ts, n.nodeID⟩

/-- The order by received time, then by node id. -/
def precedes (a b : FlowNode) : Bool :=
  a.ts.ns < b.ts.ns || (a.ts.ns = b.ts.ns && !decide (b.nodeID < a.nodeID))

end FlowNode

/-- A page of a flow, with the position of the next one. A limit of zero is none. -/
def assembleFlow (activities : List Activity) (events : List FlowEvent)
    (after : Option FlowPosition) (limit : Nat) : List FlowNode × Option FlowPosition :=
  let nodes := (activities.map FlowNode.activity ++ events.map FlowNode.event).insertionSort
    fun a b => FlowNode.precedes a b
  let rest := match after with
    | none => nodes
    | some p => nodes.dropWhile fun n => !n.after p
  if 0 < limit ∧ limit < rest.length then
    (rest.take limit, (rest[limit - 1]?).map FlowNode.position)
  else (rest, none)

end Letopis
