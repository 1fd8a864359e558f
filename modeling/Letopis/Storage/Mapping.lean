import Letopis.Domain.Calendar
import Letopis.Storage.Rules

/-!
# Stored events and activities

Events and activities are stored as documents with short keys (`EventDoc`, `ActivityDoc`). What is
modelled is the way there and back: the documents, how the driver writes them with their tags, how
it reads them, and the conversion of what it has read. Times are stored in milliseconds, and a
field that is marked `omitempty` is left out if it has its zero value. Into fields of type `any`,
and into the values of a map, the driver reads documents and arrays as values of its own types.

The values before and after a change are converted to the types of `encoding/json`. The metadata of
an event, and the data and the metadata of an activity, are not. So what comes back is what was
stored, with its times cut off, exactly if none of these has a value with values inside
(`reload_eq_iff`).

A nil slice or map is taken for an empty one.
-/

namespace Letopis

open SortedAssoc List

variable {F : Type}

/-! ### Events and activities as the storage layer sees them -/

/-- A change with values of type `any`. -/
structure AnyChange (F : Type) where
  path : String
  op : ChangeOp
  old : Any F
  new : Any F

/-- An event with values of type `any`. Its op is a text that nothing here looks at. -/
structure AnyEvent (F : Type) where
  entityID : String
  /-- The position in the entity's history. -/
  version : Int := 0
  op : String := ""
  author : String := ""
  source : String := ""
  tsSource : Time := .zero
  tsReceived : Time := .zero
  tsStored : Time := .zero
  eventID : String := ""
  requestID : String := ""
  changes : List (AnyChange F) := []
  metadata : List (String × Any F) := []
  flow : Option Flow := none
  integrity : Option Integrity := none

/-- An activity with values of type `any`. -/
structure AnyActivity (F : Type) where
  activityID : String
  type : String := ""
  flowID : String
  causedBy : List FlowRef := []
  refs : List FlowRef := []
  author : String := ""
  source : String := ""
  tsSource : Time := .zero
  tsReceived : Time := .zero
  tsStored : Time := .zero
  data : List (String × Any F) := []
  metadata : List (String × Any F) := []

/-! ### Documents -/

/-- The stored form of a change. -/
structure ChangeDoc (F : Type) where
  p : String
  o : String
  old : Any F
  new : Any F

/-- The stored form of a reference. -/
structure FlowRefDoc where
  aid : String
  c : String
  eid : String
  v : Int
  ev : String

/-- The stored form of a business flow. -/
structure FlowDoc where
  f : String
  causes : List FlowRefDoc
  step : String

/-- The stored form of a hash-chain link. -/
structure IntgDoc where
  h : String
  ph : String

/-- The stored form of an event. -/
structure EventDoc (F : Type) where
  eid : String
  v : Int
  op : String
  author : String
  src : String
  tsSource : Time
  tsRcv : Time
  tsStored : Time
  eventID : String
  rid : String
  changes : List (ChangeDoc F)
  metadata : List (String × Any F)
  flow : Option FlowDoc
  intg : Option IntgDoc

/-- The stored form of an activity. -/
structure ActivityDoc (F : Type) where
  aid : String
  type : String
  flow : String
  causes : List FlowRefDoc
  refs : List FlowRefDoc
  author : String
  src : String
  tsSource : Time
  tsRcv : Time
  tsStored : Time
  data : List (String × Any F)
  metadata : List (String × Any F)

/-- The code of an op. -/
def opToCode : ChangeOp → String
  | .add => "a"
  | .change => "c"
  | .remove => "r"

/-- The op of a code. -/
def codeToOp (code : String) : Option ChangeOp :=
  if code = "a" then some .add
  else if code = "c" then some .change
  else if code = "r" then some .remove
  else none

private theorem codeToOp_opToCode (op : ChangeOp) : codeToOp (opToCode op) = some op := by
  cases op <;> rfl

/-- The document of a reference. -/
def toFlowRefDoc (r : FlowRef) : FlowRefDoc :=
  ⟨r.activityID, r.collection, r.entityID, r.version, r.eventID⟩

/-- The reference of a document. -/
def fromFlowRefDoc (d : FlowRefDoc) : FlowRef := ⟨d.aid, d.c, d.eid, d.v, d.ev⟩

private theorem map_fromFlowRefDoc (refs : List FlowRef) :
    (refs.map toFlowRefDoc).map fromFlowRefDoc = refs := by
  rw [map_map]
  exact map_id refs

/-- The document of a flow. -/
def toFlowDoc (f : Flow) : FlowDoc := ⟨f.id, f.causedBy.map toFlowRefDoc, f.step⟩

/-- The flow of a document. -/
def fromFlowDoc (d : FlowDoc) : Flow := ⟨d.f, d.causes.map fromFlowRefDoc, d.step⟩

private theorem fromFlowDoc_toFlowDoc (f : Flow) : fromFlowDoc (toFlowDoc f) = f := by
  rw [fromFlowDoc, toFlowDoc, map_fromFlowRefDoc]

/-- The document of a hash-chain link. -/
def toIntgDoc (i : Integrity) : IntgDoc := ⟨i.hash, i.prevHash⟩

/-- The hash-chain link of a document. -/
def fromIntgDoc (d : IntgDoc) : Integrity := ⟨d.h, d.ph⟩

/-- The document of an event. -/
def toEventDoc (ev : AnyEvent F) : EventDoc F where
  eid := ev.entityID
  v := ev.version
  op := ev.op
  author := ev.author
  src := ev.source
  tsSource := ev.tsSource
  tsRcv := ev.tsReceived
  tsStored := ev.tsStored
  eventID := ev.eventID
  rid := ev.requestID
  changes := ev.changes.map fun c => ⟨c.path, opToCode c.op, c.old, c.new⟩
  metadata := ev.metadata
  flow := ev.flow.map toFlowDoc
  intg := ev.integrity.map toIntgDoc

/-- The change of a document, with its values in the types of `encoding/json`. -/
def fromChangeDoc (c : ChangeDoc F) : Except String (AnyChange F) :=
  match codeToOp c.o with
  | none => .error ("mongo: unknown change op code " ++ c.o.quote ++ " at " ++ c.p.quote)
  | some op => .ok ⟨c.p, op, canonicalJSON c.old, canonicalJSON c.new⟩

/-- The event of a document. -/
def fromEventDoc (d : EventDoc F) : Except String (AnyEvent F) := do
  let changes ← d.changes.mapM fromChangeDoc
  return {
    entityID := d.eid
    version := d.v
    op := d.op
    author := d.author
    source := d.src
    tsSource := d.tsSource
    tsReceived := d.tsRcv
    tsStored := d.tsStored
    eventID := d.eventID
    requestID := d.rid
    changes
    metadata := d.metadata
    flow := d.flow.map fromFlowDoc
    integrity := d.intg.map fromIntgDoc }

/-- The document of an activity. -/
def toActivityDoc (a : AnyActivity F) : ActivityDoc F where
  aid := a.activityID
  type := a.type
  flow := a.flowID
  causes := a.causedBy.map toFlowRefDoc
  refs := a.refs.map toFlowRefDoc
  author := a.author
  src := a.source
  tsSource := a.tsSource
  tsRcv := a.tsReceived
  tsStored := a.tsStored
  data := a.data
  metadata := a.metadata

/-- The activity of a document. -/
def fromActivityDoc (d : ActivityDoc F) : AnyActivity F where
  activityID := d.aid
  type := d.type
  flowID := d.flow
  causedBy := d.causes.map fromFlowRefDoc
  refs := d.refs.map fromFlowRefDoc
  author := d.author
  source := d.src
  tsSource := d.tsSource
  tsReceived := d.tsRcv
  tsStored := d.tsStored
  data := d.data
  metadata := d.metadata

/-! ### Times in the database -/

namespace Time

/-- The Unix epoch. -/
def unixEpoch : Time := ⟨719162 * day⟩

/-- How the driver writes an instant: the milliseconds since the epoch. -/
def toDateTime (t : Time) : Int := (t.ns - unixEpoch.ns) / millisecond

/-- The time that the driver reads. -/
def ofDateTime (ms : Int) : Time := ⟨unixEpoch.ns + ms * millisecond⟩

private theorem ofDateTime_toDateTime (t : Time) :
    ofDateTime t.toDateTime = t.truncate millisecond := by
  simp only [ofDateTime, toDateTime, truncate, unixEpoch, day, millisecond, mk.injEq]
  omega

theorem truncate_eq_zero_of_isZero {t : Time} (h : t.isZero = true) :
    t.truncate millisecond = zero := by
  have hns : t.ns = 0 := of_decide_eq_true h
  simp [truncate, hns, zero]

end Time

/-! ### Writing and reading documents -/

/-- The value of a field of a document: a time, or a value that has none inside. -/
inductive DocValue (F : Type) where
  | dateTime (ms : Int)
  | bson (b : Bson F)

/-- The value of a field that is left out if it is empty. -/
def unlessEmpty {α : Type} (empty : Bool) (v : α) : Option α := if empty then none else some v

/-- Read the field of a struct; a field that is not there keeps its zero value. -/
def readField {V α : Type} (es : List (String × V)) (key : String) (read : V → Option α)
    (zero : α) : Option α :=
  (es.lookup key).elim (some zero) read

/-- Read an integer. -/
def Bson.int64? : Bson F → Option Int
  | .int64 n => some n
  | _ => none

/-- Read a slice; null is nil. -/
def Bson.slice? {α : Type} (read : Bson F → Option α) : Bson F → Option (List α)
  | .null => some []
  | .array bs => bs.mapM read
  | _ => none

/-- Read a map; null is nil. -/
def Bson.map? : Bson F → Option (List (String × Any F))
  | .null => some []
  | .document es => some (overlay [] (toAnyEntries es))
  | _ => none

/-- Read a pointer; null is nil. -/
def Bson.pointer? {α : Type} (read : Bson F → Option α) : Bson F → Option (Option α)
  | .null => some none
  | b => (read b).map some

/-- Read a time. -/
def DocValue.time? : DocValue F → Option Time
  | .dateTime ms => some (.ofDateTime ms)
  | .bson _ => none

/-- Read what is not a time. -/
def DocValue.bson? {α : Type} (read : Bson F → Option α) : DocValue F → Option α
  | .dateTime _ => none
  | .bson b => read b

namespace FlowRefDoc

/-- The fields of a reference. -/
def members (d : FlowRefDoc) : List (String × Option (Bson F)) :=
  [("aid", unlessEmpty (d.aid = "") (.string d.aid)),
    ("c", unlessEmpty (d.c = "") (.string d.c)),
    ("eid", unlessEmpty (d.eid = "") (.string d.eid)),
    ("v", unlessEmpty (d.v = 0) (.int64 d.v)),
    ("ev", unlessEmpty (d.ev = "") (.string d.ev))]

/-- How the driver writes a reference. -/
def marshal (d : FlowRefDoc) : Bson F := .document (present d.members)

/-- Read a reference. -/
def unmarshal : Bson F → Option FlowRefDoc
  | .document es => do
    let aid ← readField es "aid" Bson.string? ""
    let c ← readField es "c" Bson.string? ""
    let eid ← readField es "eid" Bson.string? ""
    let v ← readField es "v" Bson.int64? 0
    let ev ← readField es "ev" Bson.string? ""
    return ⟨aid, c, eid, v, ev⟩
  | _ => none

end FlowRefDoc

/-- How the driver writes a slice of references. -/
def marshalRefs (ds : List FlowRefDoc) : Bson F := .array (ds.map FlowRefDoc.marshal)

namespace FlowDoc

/-- The members of a flow. -/
def members (d : FlowDoc) : List (String × Option (Bson F)) :=
  [("f", some (.string d.f)),
    ("by", unlessEmpty d.causes.isEmpty (marshalRefs d.causes)),
    ("step", unlessEmpty (d.step = "") (.string d.step))]

/-- How the driver writes a flow. -/
def marshal (d : FlowDoc) : Bson F := .document (present d.members)

/-- Read a flow. -/
def unmarshal : Bson F → Option FlowDoc
  | .document es => do
    let f ← readField es "f" Bson.string? ""
    let causes ← readField es "by" (Bson.slice? FlowRefDoc.unmarshal) []
    let step ← readField es "step" Bson.string? ""
    return ⟨f, causes, step⟩
  | _ => none

end FlowDoc

namespace IntgDoc

/-- The fields of a hash-chain link. -/
def members (d : IntgDoc) : List (String × Option (Bson F)) :=
  [("h", some (.string d.h)), ("ph", unlessEmpty (d.ph = "") (.string d.ph))]

/-- How the driver writes a hash-chain link. -/
def marshal (d : IntgDoc) : Bson F := .document (present d.members)

/-- Read a hash-chain link. -/
def unmarshal : Bson F → Option IntgDoc
  | .document es => do
    let h ← readField es "h" Bson.string? ""
    let ph ← readField es "ph" Bson.string? ""
    return ⟨h, ph⟩
  | _ => none

end IntgDoc

variable (driver : Driver)

/-- How the driver writes a map. -/
def marshalMap (m : List (String × Any F)) : Bson F :=
  .document (driver.order (Any.toBsonEntries driver m))

namespace ChangeDoc

/-- The members of a change. -/
def members (d : ChangeDoc F) : List (String × Option (Bson F)) :=
  [("p", some (.string d.p)), ("o", some (.string d.o)),
    ("old", some (d.old.toBson driver)), ("new", some (d.new.toBson driver))]

/-- How the driver writes a change. -/
def marshal (d : ChangeDoc F) : Bson F := .document (present (d.members driver))

/-- Read a change. -/
def unmarshal : Bson F → Option (ChangeDoc F)
  | .document es => do
    let p ← readField es "p" Bson.string? ""
    let o ← readField es "o" Bson.string? ""
    let old ← readField es "old" (some ∘ Bson.toAny) .null
    let new ← readField es "new" (some ∘ Bson.toAny) .null
    return ⟨p, o, old, new⟩
  | _ => none

end ChangeDoc

namespace EventDoc

/-- The members of an event. -/
def members (d : EventDoc F) : List (String × Option (DocValue F)) :=
  [("eid", some (.bson (.string d.eid))),
    ("v", some (.bson (.int64 d.v))),
    ("op", some (.bson (.string d.op))),
    ("author", unlessEmpty (d.author = "") (.bson (.string d.author))),
    ("src", unlessEmpty (d.src = "") (.bson (.string d.src))),
    ("ts_src", some (.dateTime d.tsSource.toDateTime)),
    ("ts_rcv", some (.dateTime d.tsRcv.toDateTime)),
    ("ts_st", some (.dateTime d.tsStored.toDateTime)),
    ("event_id", unlessEmpty (d.eventID = "") (.bson (.string d.eventID))),
    ("rid", unlessEmpty (d.rid = "") (.bson (.string d.rid))),
    ("changes", some (.bson (.array (d.changes.map (ChangeDoc.marshal driver))))),
    ("meta", unlessEmpty d.metadata.isEmpty (.bson (marshalMap driver d.metadata))),
    ("flow", d.flow.map fun f => .bson f.marshal),
    ("intg", d.intg.map fun i => .bson i.marshal)]

/-- How the driver writes an event. -/
def marshal (d : EventDoc F) : List (String × DocValue F) := present (d.members driver)

/-- Read the document of an event. -/
def unmarshal (es : List (String × DocValue F)) : Option (EventDoc F) := do
  let eid ← readField es "eid" (DocValue.bson? Bson.string?) ""
  let v ← readField es "v" (DocValue.bson? Bson.int64?) 0
  let op ← readField es "op" (DocValue.bson? Bson.string?) ""
  let author ← readField es "author" (DocValue.bson? Bson.string?) ""
  let src ← readField es "src" (DocValue.bson? Bson.string?) ""
  let tsSource ← readField es "ts_src" DocValue.time? .zero
  let tsRcv ← readField es "ts_rcv" DocValue.time? .zero
  let tsStored ← readField es "ts_st" DocValue.time? .zero
  let eventID ← readField es "event_id" (DocValue.bson? Bson.string?) ""
  let rid ← readField es "rid" (DocValue.bson? Bson.string?) ""
  let changes ← readField es "changes" (DocValue.bson? (Bson.slice? ChangeDoc.unmarshal)) []
  let metadata ← readField es "meta" (DocValue.bson? Bson.map?) []
  let flow ← readField es "flow" (DocValue.bson? (Bson.pointer? FlowDoc.unmarshal)) none
  let intg ← readField es "intg" (DocValue.bson? (Bson.pointer? IntgDoc.unmarshal)) none
  return ⟨eid, v, op, author, src, tsSource, tsRcv, tsStored, eventID, rid, changes, metadata,
    flow, intg⟩

end EventDoc

namespace ActivityDoc

/-- The fields of an activity. -/
def members (d : ActivityDoc F) : List (String × Option (DocValue F)) :=
  [("aid", some (.bson (.string d.aid))),
    ("type", unlessEmpty (d.type = "") (.bson (.string d.type))),
    ("flow", some (.bson (.string d.flow))),
    ("by", unlessEmpty d.causes.isEmpty (.bson (marshalRefs d.causes))),
    ("refs", unlessEmpty d.refs.isEmpty (.bson (marshalRefs d.refs))),
    ("author", unlessEmpty (d.author = "") (.bson (.string d.author))),
    ("src", unlessEmpty (d.src = "") (.bson (.string d.src))),
    ("ts_src", unlessEmpty d.tsSource.isZero (.dateTime d.tsSource.toDateTime)),
    ("ts_rcv", some (.dateTime d.tsRcv.toDateTime)),
    ("ts_st", some (.dateTime d.tsStored.toDateTime)),
    ("data", unlessEmpty d.data.isEmpty (.bson (marshalMap driver d.data))),
    ("meta", unlessEmpty d.metadata.isEmpty (.bson (marshalMap driver d.metadata)))]

/-- How the driver writes an activity. -/
def marshal (d : ActivityDoc F) : List (String × DocValue F) := present (d.members driver)

/-- Read the document of an activity. -/
def unmarshal (es : List (String × DocValue F)) : Option (ActivityDoc F) := do
  let aid ← readField es "aid" (DocValue.bson? Bson.string?) ""
  let type ← readField es "type" (DocValue.bson? Bson.string?) ""
  let flow ← readField es "flow" (DocValue.bson? Bson.string?) ""
  let causes ← readField es "by" (DocValue.bson? (Bson.slice? FlowRefDoc.unmarshal)) []
  let refs ← readField es "refs" (DocValue.bson? (Bson.slice? FlowRefDoc.unmarshal)) []
  let author ← readField es "author" (DocValue.bson? Bson.string?) ""
  let src ← readField es "src" (DocValue.bson? Bson.string?) ""
  let tsSource ← readField es "ts_src" DocValue.time? .zero
  let tsRcv ← readField es "ts_rcv" DocValue.time? .zero
  let tsStored ← readField es "ts_st" DocValue.time? .zero
  let data ← readField es "data" (DocValue.bson? Bson.map?) []
  let metadata ← readField es "meta" (DocValue.bson? Bson.map?) []
  return ⟨aid, type, flow, causes, refs, author, src, tsSource, tsRcv, tsStored, data, metadata⟩

end ActivityDoc

/-- Store an event and read it back. -/
def reloadEvent (ev : AnyEvent F) : Option (Except String (AnyEvent F)) :=
  (EventDoc.unmarshal ((toEventDoc ev).marshal driver)).map fromEventDoc

/-- Store an activity and read it back. -/
def reloadActivity (a : AnyActivity F) : Option (AnyActivity F) :=
  (ActivityDoc.unmarshal ((toActivityDoc a).marshal driver)).map fromActivityDoc

/-! ### There and back -/

section Fields

variable {V α : Type} {ms : List (String × Option V)} {key : String} {read : V → Option α}
  {zero x : α} {v : V}

private theorem readField_some (hkeys : (ms.map Prod.fst).Nodup)
    (hmem : ms.lookup key = some (some v))
    (hread : read v = some x) : readField (present ms) key read zero = some x := by
  rw [readField, lookup_present hkeys, hmem]
  exact hread

private theorem readField_unlessEmpty {empty : Bool} (hkeys : (ms.map Prod.fst).Nodup)
    (hmem : ms.lookup key = some (unlessEmpty empty v)) (hread : read v = some x)
    (hzero : empty = true → zero = x) : readField (present ms) key read zero = some x := by
  rw [readField, lookup_present hkeys, hmem]
  cases empty with
  | true => exact congrArg some (hzero rfl)
  | false => exact hread

private theorem readField_pointer {β : Type} {write : β → V} {read : V → Option (Option β)}
    {o : Option β} (hkeys : (ms.map Prod.fst).Nodup) (hmem : ms.lookup key = some (o.map write))
    (hread : ∀ b, read (write b) = some (some b)) :
    readField (present ms) key read none = some o := by
  rw [readField, lookup_present hkeys, hmem]
  cases o with
  | none => rfl
  | some b => exact hread b

end Fields

private theorem slice?_array {α β : Type} {write : α → Bson F} {read : Bson F → Option β}
    {f : α → β} {xs : List α} (h : ∀ x ∈ xs, read (write x) = some (f x)) :
    Bson.slice? read (.array (xs.map write)) = some (xs.map f) := by
  rw [Bson.slice?]
  induction xs with
  | nil => rfl
  | cons x xs ih =>
    obtain ⟨hx, hxs⟩ := forall_mem_cons.mp h
    rw [map_cons, mapM_cons, hx, ih hxs]
    rfl

variable {m : List (String × Any F)}

private theorem map?_marshalMap (hm : Sorted m) :
    (marshalMap driver m).map? = some (mapValues (fun v => (v.toBson driver).toAny) m) := by
  have hvalues : mapValues Bson.toAny (mapValues (Any.toBson driver) m) =
      mapValues (fun v => (v.toBson driver).toAny) m := by
    rw [mapValues, mapValues, map_map]
    rfl
  have hsorted : Sorted (mapValues (fun v => (v.toBson driver).toAny) m) := by
    rw [sorted_iff_keys, map_fst_mapValues]
    exact sorted_iff_keys.mp hm
  rw [marshalMap, Bson.map?, toBsonEntries_eq, toAnyEntries_eq]
  refine congrArg some (overlay_of_perm hsorted ?_)
  rw [← hvalues]
  exact (driver.perm _).map _

private theorem eq_of_decide_empty (s : String) (h : decide (s = "") = true) : "" = s :=
  (of_decide_eq_true h).symm

private theorem bind_of_eq_some {α β : Type} {o : Option α} {x : α} {f : α → Option β}
    {r : Option β} (h : o = some x) (hrest : f x = r) : (o >>= f) = r := by
  rw [h]
  exact hrest

private theorem FlowRefDoc.unmarshal_marshal (d : FlowRefDoc) :
    unmarshal (d.marshal : Bson F) = some d := by
  have hkeys : ((d.members : List (String × Option (Bson F))).map Prod.fst).Nodup := by
    simp [members]
  refine bind_of_eq_some (readField_unlessEmpty hkeys rfl rfl (eq_of_decide_empty d.aid)) ?_
  refine bind_of_eq_some (readField_unlessEmpty hkeys rfl rfl (eq_of_decide_empty d.c)) ?_
  refine bind_of_eq_some (readField_unlessEmpty hkeys rfl rfl (eq_of_decide_empty d.eid)) ?_
  have hversion : decide (d.v = 0) = true → 0 = d.v := fun h => (of_decide_eq_true h).symm
  refine bind_of_eq_some (readField_unlessEmpty hkeys rfl rfl hversion) ?_
  exact bind_of_eq_some (readField_unlessEmpty hkeys rfl rfl (eq_of_decide_empty d.ev)) rfl

private theorem slice?_marshalRefs (ds : List FlowRefDoc) :
    Bson.slice? FlowRefDoc.unmarshal (marshalRefs ds : Bson F) = some ds := by
  have hds := slice?_array (F := F) (f := id) fun d (_ : d ∈ ds) => d.unmarshal_marshal
  rwa [map_id] at hds

private theorem FlowDoc.unmarshal_marshal (d : FlowDoc) :
    unmarshal (d.marshal : Bson F) = some d := by
  have hkeys : ((d.members : List (String × Option (Bson F))).map Prod.fst).Nodup := by
    simp [members]
  refine bind_of_eq_some (readField_some hkeys rfl rfl) ?_
  refine bind_of_eq_some (readField_unlessEmpty hkeys rfl (slice?_marshalRefs d.causes)
    fun h => (List.isEmpty_iff.mp h).symm) ?_
  exact bind_of_eq_some (readField_unlessEmpty hkeys rfl rfl (eq_of_decide_empty d.step)) rfl

private theorem IntgDoc.unmarshal_marshal (d : IntgDoc) :
    unmarshal (d.marshal : Bson F) = some d := by
  have hkeys : ((d.members : List (String × Option (Bson F))).map Prod.fst).Nodup := by
    simp [members]
  refine bind_of_eq_some (readField_some hkeys rfl rfl) ?_
  exact bind_of_eq_some (readField_unlessEmpty hkeys rfl rfl (eq_of_decide_empty d.ph)) rfl

private theorem ChangeDoc.unmarshal_marshal (d : ChangeDoc F) :
    unmarshal (d.marshal driver) =
      some ⟨d.p, d.o, (d.old.toBson driver).toAny, (d.new.toBson driver).toAny⟩ := by
  have hkeys : ((d.members driver).map Prod.fst).Nodup := by simp [members]
  refine bind_of_eq_some (readField_some hkeys rfl rfl) ?_
  refine bind_of_eq_some (readField_some hkeys rfl rfl) ?_
  refine bind_of_eq_some (readField_some hkeys rfl rfl) ?_
  exact bind_of_eq_some (readField_some hkeys rfl rfl) rfl

section Values

variable {ms : List (String × Option (DocValue F))} {key : String}

private theorem readField_text {s : String} (hkeys : (ms.map Prod.fst).Nodup)
    (hmem : ms.lookup key = some (unlessEmpty (s = "") (.bson (.string s)))) :
    readField (present ms) key (DocValue.bson? Bson.string?) "" = some s :=
  readField_unlessEmpty hkeys hmem rfl (eq_of_decide_empty s)

private theorem readField_time {t : Time} (hkeys : (ms.map Prod.fst).Nodup)
    (hmem : ms.lookup key = some (some (.dateTime t.toDateTime))) :
    readField (present ms) key DocValue.time? .zero = some (t.truncate Time.millisecond) :=
  readField_some hkeys hmem (congrArg some t.ofDateTime_toDateTime)

private theorem readField_refs {ds : List FlowRefDoc} (hkeys : (ms.map Prod.fst).Nodup)
    (hmem : ms.lookup key = some (unlessEmpty ds.isEmpty (.bson (marshalRefs ds)))) :
    readField (present ms) key (DocValue.bson? (Bson.slice? FlowRefDoc.unmarshal)) [] = some ds :=
  readField_unlessEmpty hkeys hmem (slice?_marshalRefs ds) fun h => (List.isEmpty_iff.mp h).symm

private theorem readField_map {m : List (String × Any F)} (hkeys : (ms.map Prod.fst).Nodup)
    (hm : Sorted m) (hmem : ms.lookup key =
      some (unlessEmpty m.isEmpty (.bson (marshalMap driver m)))) :
    readField (present ms) key (DocValue.bson? Bson.map?) [] =
      some (mapValues (fun v => (v.toBson driver).toAny) m) := by
  refine readField_unlessEmpty hkeys hmem (map?_marshalMap driver hm) fun h => ?_
  rw [List.isEmpty_iff.mp h]
  rfl

end Values

private theorem EventDoc.unmarshal_marshal {d : EventDoc F} (hmeta : Sorted d.metadata) :
    unmarshal (d.marshal driver) = some
      { d with
        tsSource := d.tsSource.truncate Time.millisecond
        tsRcv := d.tsRcv.truncate Time.millisecond
        tsStored := d.tsStored.truncate Time.millisecond
        changes := d.changes.map fun c =>
          ⟨c.p, c.o, (c.old.toBson driver).toAny, (c.new.toBson driver).toAny⟩
        metadata := mapValues (fun v => (v.toBson driver).toAny) d.metadata } := by
  have hkeys : ((d.members driver).map Prod.fst).Nodup := by simp [members]
  have hchanges := slice?_array fun c (_ : c ∈ d.changes) => c.unmarshal_marshal driver
  have hflow : ∀ f : FlowDoc,
      Bson.pointer? FlowDoc.unmarshal (f.marshal : Bson F) = some (some f) :=
    fun f => congrArg (Option.map some) f.unmarshal_marshal
  have hintg : ∀ i : IntgDoc,
      Bson.pointer? IntgDoc.unmarshal (i.marshal : Bson F) = some (some i) :=
    fun i => congrArg (Option.map some) i.unmarshal_marshal
  refine bind_of_eq_some (readField_some hkeys rfl rfl) ?_
  refine bind_of_eq_some (readField_some hkeys rfl rfl) ?_
  refine bind_of_eq_some (readField_some hkeys rfl rfl) ?_
  refine bind_of_eq_some (readField_text hkeys rfl) ?_
  refine bind_of_eq_some (readField_text hkeys rfl) ?_
  refine bind_of_eq_some (readField_time hkeys rfl) ?_
  refine bind_of_eq_some (readField_time hkeys rfl) ?_
  refine bind_of_eq_some (readField_time hkeys rfl) ?_
  refine bind_of_eq_some (readField_text hkeys rfl) ?_
  refine bind_of_eq_some (readField_text hkeys rfl) ?_
  refine bind_of_eq_some (readField_some hkeys rfl hchanges) ?_
  refine bind_of_eq_some (readField_map driver hkeys hmeta rfl) ?_
  refine bind_of_eq_some (readField_pointer hkeys rfl hflow) ?_
  exact bind_of_eq_some (readField_pointer hkeys rfl hintg) rfl

private theorem ActivityDoc.unmarshal_marshal {d : ActivityDoc F} (hdata : Sorted d.data)
    (hmeta : Sorted d.metadata) :
    unmarshal (d.marshal driver) = some
      { d with
        tsSource := d.tsSource.truncate Time.millisecond
        tsRcv := d.tsRcv.truncate Time.millisecond
        tsStored := d.tsStored.truncate Time.millisecond
        data := mapValues (fun v => (v.toBson driver).toAny) d.data
        metadata := mapValues (fun v => (v.toBson driver).toAny) d.metadata } := by
  have hkeys : ((d.members driver).map Prod.fst).Nodup := by simp [members]
  refine bind_of_eq_some (readField_some hkeys rfl rfl) ?_
  refine bind_of_eq_some (readField_text hkeys rfl) ?_
  refine bind_of_eq_some (readField_some hkeys rfl rfl) ?_
  refine bind_of_eq_some (readField_refs hkeys rfl) ?_
  refine bind_of_eq_some (readField_refs hkeys rfl) ?_
  refine bind_of_eq_some (readField_text hkeys rfl) ?_
  refine bind_of_eq_some (readField_text hkeys rfl) ?_
  refine bind_of_eq_some (readField_unlessEmpty hkeys rfl
    (congrArg some d.tsSource.ofDateTime_toDateTime)
    fun h => (Time.truncate_eq_zero_of_isZero h).symm) ?_
  refine bind_of_eq_some (readField_time hkeys rfl) ?_
  refine bind_of_eq_some (readField_time hkeys rfl) ?_
  refine bind_of_eq_some (readField_map driver hkeys hdata rfl) ?_
  exact bind_of_eq_some (readField_map driver hkeys hmeta rfl) rfl

/-! ### What comes back -/

/-- The value has no values inside. -/
def Any.isScalar : Any F → Bool
  | .null | .bool _ | .float _ | .int _ | .str _ => true
  | .slice _ | .map _ | .bsonA _ | .bsonD _ | .bsonM _ => false

/-- Without a conversion, a JSON value comes back as it was exactly if it has no values inside. -/
theorem toAny_toBson_eq_iff {v : Any F} (h : v.IsJson) :
    (v.toBson driver).toAny = v ↔ v.isScalar = true := by
  cases h with
  | null | bool | float | str => exact iff_of_true rfl rfl
  | slice | map => exact iff_of_false (fun heq => by cases heq) Bool.false_ne_true

private theorem mapValues_toAny_toBson_eq_iff (h : (Any.map m).IsJson) :
    mapValues (fun v => (v.toBson driver).toAny) m = m ↔ ∀ p ∈ m, p.2.isScalar = true := by
  cases h with
  | map _ hvalues =>
    have hid : mapValues (fun v => (v.toBson driver).toAny) m = m ↔
        ∀ p ∈ m, (p.1, (p.2.toBson driver).toAny) = id p := by
      rw [← map_inj_left, map_id]
      rfl
    rw [hid]
    refine forall₂_congr fun p hp => ?_
    rw [← toAny_toBson_eq_iff driver (hvalues p hp)]
    exact ⟨congrArg Prod.snd, fun heq => Prod.ext rfl heq⟩

/-- The values of the event are JSON values. -/
structure AnyEvent.IsJson (ev : AnyEvent F) : Prop where
  changes : ∀ c ∈ ev.changes, c.old.IsJson ∧ c.new.IsJson
  metadata : (Any.map ev.metadata).IsJson

/-- The event with its times cut off to milliseconds. -/
def AnyEvent.truncated (ev : AnyEvent F) : AnyEvent F :=
  { ev with
    tsSource := ev.tsSource.truncate Time.millisecond
    tsReceived := ev.tsReceived.truncate Time.millisecond
    tsStored := ev.tsStored.truncate Time.millisecond }

/-- The values of the activity are JSON values. -/
structure AnyActivity.IsJson (a : AnyActivity F) : Prop where
  data : (Any.map a.data).IsJson
  metadata : (Any.map a.metadata).IsJson

/-- The activity with its times cut off to milliseconds. -/
def AnyActivity.truncated (a : AnyActivity F) : AnyActivity F :=
  { a with
    tsSource := a.tsSource.truncate Time.millisecond
    tsReceived := a.tsReceived.truncate Time.millisecond
    tsStored := a.tsStored.truncate Time.millisecond }

theorem Any.IsJson.sorted (h : (Any.map m).IsJson) : Sorted m := by
  cases h with
  | map hs _ => exact hs

private theorem mapM_fromChangeDoc {changes : List (AnyChange F)}
    (h : ∀ c ∈ changes, c.old.IsJson ∧ c.new.IsJson) :
    ((changes.map fun c => (⟨c.path, opToCode c.op, c.old, c.new⟩ : ChangeDoc F)).map fun c =>
      (⟨c.p, c.o, (c.old.toBson driver).toAny, (c.new.toBson driver).toAny⟩ : ChangeDoc F)).mapM
        fromChangeDoc = .ok changes := by
  induction changes with
  | nil => rfl
  | cons c changes ih =>
    obtain ⟨hc, hchanges⟩ := forall_mem_cons.mp h
    have hhead : fromChangeDoc ⟨c.path, opToCode c.op, (c.old.toBson driver).toAny,
        (c.new.toBson driver).toAny⟩ = .ok c := by
      rw [fromChangeDoc, codeToOp_opToCode, canonicalJSON_toAny_toBson driver hc.1,
        canonicalJSON_toAny_toBson driver hc.2]
    rw [map_cons, map_cons, mapM_cons, hhead, ih hchanges]
    rfl

/-- What comes back of an event: only its metadata are as the driver reads them. -/
theorem reloadEvent_eq {ev : AnyEvent F} (h : ev.IsJson) :
    reloadEvent driver ev = some (.ok { ev.truncated with
      metadata := mapValues (fun v => (v.toBson driver).toAny) ev.metadata }) := by
  have hmeta : Sorted (toEventDoc ev).metadata := h.metadata.sorted
  have hflow : (ev.flow.map toFlowDoc).map fromFlowDoc = ev.flow := by
    cases ev.flow with
    | none => rfl
    | some f => exact congrArg some (fromFlowDoc_toFlowDoc f)
  have hintg : (ev.integrity.map toIntgDoc).map fromIntgDoc = ev.integrity := by
    cases ev.integrity with
    | none => rfl
    | some i => rfl
  rw [reloadEvent, EventDoc.unmarshal_marshal driver hmeta, Option.map_some, fromEventDoc]
  simp only [toEventDoc, mapM_fromChangeDoc driver h.changes, hflow, hintg]
  rfl

/-- What comes back of an activity: its data and metadata are as the driver reads them. -/
theorem reloadActivity_eq {a : AnyActivity F} (h : a.IsJson) :
    reloadActivity driver a = some { a.truncated with
      data := mapValues (fun v => (v.toBson driver).toAny) a.data
      metadata := mapValues (fun v => (v.toBson driver).toAny) a.metadata } := by
  have hdata : Sorted (toActivityDoc a).data := h.data.sorted
  have hmeta : Sorted (toActivityDoc a).metadata := h.metadata.sorted
  rw [reloadActivity, ActivityDoc.unmarshal_marshal driver hdata hmeta, Option.map_some,
    fromActivityDoc]
  simp only [toActivityDoc, map_fromFlowRefDoc]
  rfl

/-- **Stored values.** An event comes back as it was, with its times cut off, if and only if its
metadata have no objects and no arrays as values; and an activity, if and only if its data and
its metadata have none. -/
theorem reload_eq_iff {ev : AnyEvent F} (hev : ev.IsJson) {a : AnyActivity F} (ha : a.IsJson) :
    (reloadEvent driver ev = some (.ok ev.truncated) ↔
      ∀ p ∈ ev.metadata, p.2.isScalar = true) ∧
    (reloadActivity driver a = some a.truncated ↔
      (∀ p ∈ a.data, p.2.isScalar = true) ∧ ∀ p ∈ a.metadata, p.2.isScalar = true) := by
  rw [reloadEvent_eq driver hev, reloadActivity_eq driver ha,
    ← mapValues_toAny_toBson_eq_iff driver hev.metadata,
    ← mapValues_toAny_toBson_eq_iff driver ha.data,
    ← mapValues_toAny_toBson_eq_iff driver ha.metadata, Option.some.injEq, Except.ok.injEq,
    Option.some.injEq]
  constructor
  · exact ⟨congrArg AnyEvent.metadata, fun heq => by rw [heq]; rfl⟩
  · refine ⟨fun heq => ⟨congrArg AnyActivity.data heq, congrArg AnyActivity.metadata heq⟩, ?_⟩
    rintro ⟨hdata, hmeta⟩
    rw [hdata, hmeta]
    rfl

/-- An event and an activity with flat metadata and data. -/
theorem reload_eq_iff_flat :
    let ev : AnyEvent Int :=
      { entityID := "d-1", version := 17, op := "update", tsSource := ⟨1500000⟩
        changes := [⟨"tags", .add, .null, .slice [.str "vip"]⟩]
        metadata := [("ip", .str "10.1.2.3")] }
    let a : AnyActivity Int :=
      { activityID := "act_01J", flowID := "f_01J", data := [("recalced", .float 17)] }
    reloadEvent Driver.byKey ev = some (.ok ev.truncated) ∧
      reloadActivity Driver.byKey a = some a.truncated := by
  intro ev a
  have hev : ev.IsJson := by
    refine ⟨forall_mem_singleton.mpr ⟨.null, .slice ?_⟩, .map (by decide +kernel) ?_⟩
    · exact forall_mem_singleton.mpr (.str "vip")
    · exact forall_mem_singleton.mpr (.str "10.1.2.3")
  have ha : a.IsJson := by
    refine ⟨.map (by decide +kernel) ?_, .map (by decide +kernel) ?_⟩
    · exact forall_mem_singleton.mpr (.float 17)
    · exact forall_mem_nil _
  obtain ⟨hevent, hactivity⟩ := reload_eq_iff Driver.byKey hev ha
  exact ⟨hevent.mpr (forall_mem_singleton.mpr rfl),
    hactivity.mpr ⟨forall_mem_singleton.mpr rfl, forall_mem_nil _⟩⟩

/-- Metadata with an object inside, and data with an array inside, come back as values of the
driver. -/
theorem nested_values_come_back_as_bson :
    let ev : AnyEvent Int :=
      { entityID := "d-1", version := 17, op := "update"
        metadata := [("geo", .map [("city", .str "Riga")])] }
    let a : AnyActivity Int :=
      { activityID := "act_01J", flowID := "f_01J", data := [("ids", .slice [.float 1])] }
    reloadEvent Driver.byKey ev =
        some (.ok { ev with metadata := [("geo", .bsonD [("city", .str "Riga")])] }) ∧
      reloadEvent Driver.byKey ev ≠ some (.ok ev.truncated) ∧
      reloadActivity Driver.byKey a = some { a with data := [("ids", .bsonA [.float 1])] } ∧
      reloadActivity Driver.byKey a ≠ some a.truncated := by
  intro ev a
  have hev : reloadEvent Driver.byKey ev =
      some (.ok { ev with metadata := [("geo", .bsonD [("city", .str "Riga")])] }) := by
    rfl
  have ha : reloadActivity Driver.byKey a =
      some { a with data := [("ids", .bsonA [.float 1])] } := by
    rfl
  refine ⟨hev, fun heq => ?_, ha, fun heq => ?_⟩
  · rw [hev] at heq
    cases heq
  · rw [ha] at heq
    cases heq

end Letopis
