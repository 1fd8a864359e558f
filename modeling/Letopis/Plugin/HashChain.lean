import Letopis.Diff.Canonical
import Letopis.Domain.Calendar
import Letopis.Encoding.Sha256
import Letopis.Service.Ingest

/-!
# The hash-chain plugin

For each event the plugin computes `"sha256:" + hex(SHA-256(prev_hash ‖ canonical(event)))`, where
`prev_hash` is the hash of the entity's last event, or the collection's genesis hash if there is
none, and `canonical(event)` is the JSON encoding of the event's signed fields. Only present
fields enter it: a missing author, an empty list of changes or a missing flow adds nothing.
-/

namespace Letopis

/-- The name of a lifecycle transition. -/
def EntityOp.text : EntityOp → String
  | .create => "create"
  | .update => "update"
  | .delete => "delete"

namespace HashChain

/-- The name the plugin is configured under. -/
def name : String := "hash_chain"

/-- What a collection's genesis hash is taken over, before the name of the collection. -/
def genesisPrefix : String := "letopis:genesis:v1:"

/-- What every hash starts with. -/
def hashScheme : String := "sha256:"

/-- The fields of an event that enter its hash. -/
structure Projection where
  op : EntityOp
  entityID : String
  author : String
  source : String
  tsSource : Time
  changes : List Change
  flow : Option Flow

/-- The projection of a stored event. -/
def projectionFromEvent (ev : Event) : Projection :=
  ⟨ev.op, ev.entityID, ev.author, ev.source, ev.tsSource, ev.changes, ev.flow⟩

/-- The projection of an event about to be stored. -/
def projectionFromDraft (d : EventDraft) : Projection :=
  ⟨d.op, d.entityID, d.author, d.source, d.tsSource, d.changes, d.flow⟩

/-! ### The canonical form -/

/-- Set a field if it is present. -/
def put (key : String) (present : Bool) (value : Json) (m : Fields) : Fields :=
  if present then SortedAssoc.insert key value m else m

/-- A change with the values its op signs. -/
def canonicalChange (c : Change) : Json :=
  let m : Fields := [("op", .str c.op.text), ("path", .str c.path)]
  match c.op with
  | .add => .obj (SortedAssoc.insert "new" c.new m)
  | .remove => .obj (SortedAssoc.insert "old" c.old m)
  | .change => .obj (SortedAssoc.insert "new" c.new (SortedAssoc.insert "old" c.old m))

/-- A reference with the fields it has. -/
def canonicalRef (r : FlowRef) : Json :=
  .obj <| put "event_id" (r.eventID ≠ "") (.str r.eventID) <|
    put "version" (r.version ≠ 0) (.num (.ofInt r.version)) <|
    put "entity_id" (r.entityID ≠ "") (.str r.entityID) <|
    put "collection" (r.collection ≠ "") (.str r.collection) <|
    put "activity_id" (r.activityID ≠ "") (.str r.activityID) []

/-- A flow with the fields it has. -/
def canonicalFlow (f : Flow) : Json :=
  .obj <| put "caused_by" (f.causedBy ≠ []) (.arr (f.causedBy.map canonicalRef)) <|
    put "step" (f.step ≠ "") (.str f.step) <|
    put "id" (f.id ≠ "") (.str f.id) []

/-- The signed fields, as a JSON value. -/
def Projection.fields (p : Projection) : Fields :=
  put "flow" p.flow.isSome ((p.flow.map canonicalFlow).getD .null) <|
    put "ts_source" (!p.tsSource.isZero)
      (.str (p.tsSource.truncate Time.millisecond).format) <|
    put "source" (p.source ≠ "") (.str p.source) <|
    put "author" (p.author ≠ "") (.str p.author) <|
    put "changes" (p.changes ≠ []) (.arr (p.changes.map canonicalChange)) <|
    [("entity_id", .str p.entityID), ("op", .str p.op.text)]

/-- The bytes an event contributes to its hash. -/
def canonical (p : Projection) : List UInt8 := canonicalize (.obj p.fields)

/-! ### The chain -/

/-- The hash of a message, with the name of the scheme. -/
def digest (message : List UInt8) : String :=
  hashScheme ++ .ofList (Text.hex (Sha256.sum256 message))

/-- The first `prev_hash` of a collection's chains. -/
def genesis (collection : String) : String := digest (Text.bytes (genesisPrefix ++ collection))

/-- The link of an event after the previous hash. -/
def hash (prevHash : String) (p : Projection) : String :=
  digest (Text.bytes prevHash ++ canonical p)

/-- What the next link is computed from: the hash of the last event, or the genesis if there is
no last event or it has no hash. -/
def prevHashOf (collection : String) (last : Option Event) : String :=
  match last.bind Event.integrity with
  | some link => if link.hash ≠ "" then link.hash else genesis collection
  | none => genesis collection

/-- Compute the entity's next link and record it on the draft. -/
def preStore (draft : EventDraft) (prev : EntityView) : List DraftEdit × Option String :=
  let prevHash := prevHashOf draft.collection prev.lastEvent
  ([.setIntegrity (hash prevHash (projectionFromDraft draft)) prevHash], none)

/-- The hash chain as a hook. -/
def plugin : PreStorePlugin := ⟨name, preStore⟩

end HashChain

end Letopis
