import Letopis.Service.Ingest

/-!
# The batch write path

`IngestBatch` applies a run of fast-mode writes with one `insertMany` per collection. The items
of a collection are folded in arrival order over in-memory copies of the entities' current
states: the first item of an entity loads them, later ones go on from what the item before
them left. Versions are counted up from the loaded state, without asking for the last stored
event. Nothing is written before the fold is over; then the events are inserted in order up to
the first error, and only if there is none the current states are refreshed and the snapshots
taken.

`insertMany` is not one step: the server inserts document after document, and other writers
may come in between. Go maps are functions here, with `none` for a missing key.
-/

namespace Letopis

open Interleaving

/-- One item of a fast-mode flush. -/
structure BatchItem where
  kind : Kind
  command : IngestCommand

/-- A flush: who carries it out, the clock readings for each item, and the items. -/
structure Batch where
  ing : Ingester
  /-- The clock readings of the item at each position. -/
  now : Nat → Stamps
  items : List BatchItem

/-- Where the fold over the items of a collection stands. -/
structure Fold where
  /-- The loaded entities and their states as the fold advances. -/
  running : String → Option (Option CurrentState) := fun _ => none
  lastEv : String → Option Event := fun _ => none
  /-- The states to upsert after the insertion. -/
  finals : String → Option CurrentState := fun _ => none
  finalOrder : List String := []
  /-- The events to insert, each with the position of its item. -/
  events : List (Event × Nat) := []
  /-- One snapshot candidate for each event. -/
  snaps : List Snapshot := []
  /-- The failures so far, by item position. -/
  errs : Nat → Option IngestErr := fun _ => none

/-- Record the failure of an item. -/
def Fold.fail (st : Fold) (k : Nat) (e : IngestErr) : Fold :=
  { st with errs := Function.update st.errs k (some e) }

/-- Add a planned event to the fold: its entity moves on to the state it leads to. -/
def Fold.push (st : Fold) (k : Nat) (eid : String) (ev : Event) (newState : Fields)
    (deleted : Bool) : Fold :=
  let next : CurrentState := ⟨eid, ev.version, ev.tsReceived, deleted, newState⟩
  { st with
    events := st.events ++ [(ev, k)]
    snaps := st.snaps ++ [⟨eid, ev.version, ev.tsReceived, deleted, newState⟩]
    running := Function.update st.running eid (some (some next))
    finalOrder := if (st.finals eid).isSome then st.finalOrder else st.finalOrder ++ [eid]
    finals := Function.update st.finals eid (some next) }

namespace Batch

/-- The version after the current one. -/
def nextVersion : Option CurrentState → Nat
  | none => 1
  | some cur => cur.version + 1

variable (b : Batch) (cfg : CollectionConfig) (collection : String)

/-- Plan one item against the state its entity has reached. -/
def planItem (st : Fold) (it : BatchItem) (k : Nat) (cur : Option CurrentState) : Fold :=
  let eid := it.command.entityID
  match planEvent (b.now k).received cfg it.kind it.command cur with
  | .error e => st.fail k e
  | .ok .noChange => st
  | .ok (.write ev newState deleted) =>
    let ev := { ev with version := nextVersion cur, tsStored := (b.now k).stored }
    if hasPreStore b.ing.pre cfg then
      match runPreStore cfg collection ⟨st.lastEv eid, cur⟩ b.ing.pre ev with
      | .error e => st.fail k e
      | .ok ev => { st.push k eid ev newState deleted with
          lastEv := Function.update st.lastEv eid (some ev) }
    else st.push k eid ev newState deleted

/-- One item of the fold. Only the first item of an entity reads the store. A failed read of the
last event leaves the current state loaded. -/
def foldItem (st : Fold) (it : BatchItem) (k : Nat) : Prog Storage Fold := do
  let eid := it.command.entityID
  match st.running eid with
  | some cur => return b.planItem cfg collection st it k cur
  | none =>
    match ← load collection eid with
    | .error e => return st.fail k e
    | .ok cur =>
      let st := { st with running := Function.update st.running eid (some cur) }
      if hasPreStore b.ing.pre cfg then
        match ← lastEvent collection eid with
        | .error e => return st.fail k e
        | .ok last =>
          return b.planItem cfg collection
            { st with lastEv := Function.update st.lastEv eid last } it k cur
      else return b.planItem cfg collection st it k cur

/-- The fold over the items of a collection. -/
def foldItems : List (BatchItem × Nat) → Fold → Prog Storage Fold
  | [], st => return st
  | (it, k) :: items, st => do
    let st ← b.foldItem cfg collection st it k
    foldItems items st

/-- `insertMany`: document after document, up to the first error. -/
def insertMany : List Event → Prog Storage (Except StoreErr Unit)
  | [] => return .ok ()
  | ev :: evs => do
    match ← Storage.ask (.insertEvent collection ev) with
    | .ok () => insertMany evs
    | .error e => return .error e

/-- Refresh the current states; failures are ignored. -/
def upsertFinals (finals : String → Option CurrentState) : List String → Prog Storage Unit
  | [] => return ()
  | eid :: order => do
    match finals eid with
    | some st =>
      let _ ← Storage.ask (.upsertCurrent collection st)
      upsertFinals finals order
    | none => upsertFinals finals order

/-- Save the snapshots that are due. -/
def buildSnapshots : List Snapshot → Prog Storage Unit
  | [] => return ()
  | snap :: snaps => do
    buildSnapshot b.ing.snapshots collection snap cfg.snapshotInterval
    buildSnapshots snaps

/-- The same failure for every item at the positions. -/
def failAll (errs : Nat → Option IngestErr) (ks : List Nat) (e : IngestErr) :
    Nat → Option IngestErr :=
  fun k => if k ∈ ks then some e else errs k

/-- Write what the fold over a collection has gathered. -/
def flush (st : Fold) : Prog Storage (Nat → Option IngestErr) := do
  if st.events = [] then return st.errs
  else
    match ← insertMany collection (st.events.map Prod.fst) with
    | .error e =>
      -- a failed insertion taints every item that fed it
      let err : IngestErr := .appendBatchFailed collection st.events.length e
      return failAll st.errs (st.events.map Prod.snd) err
    | .ok () =>
      upsertFinals collection st.finals st.finalOrder
      b.buildSnapshots cfg collection st.snaps
      return st.errs

/-- The items of a collection, with their positions. -/
def itemsOf : List (BatchItem × Nat) :=
  b.items.zipIdx.filter fun p => p.1.command.collection = collection

/-- Fold the items of one collection into one `insertMany`. -/
def batchCollection (errs : Nat → Option IngestErr) : Prog Storage (Nat → Option IngestErr) := do
  match ← Storage.ask (.ensureCollection collection) with
  | .error e => return failAll errs ((b.itemsOf collection).map Prod.snd) (.store e)
  | .ok cfg =>
    let st ← b.foldItems cfg collection (b.itemsOf collection) { errs }
    b.flush cfg collection st

/-- The collections one after the other. -/
def batchCollections : List String → (Nat → Option IngestErr) →
    Prog Storage (Nat → Option IngestErr)
  | [], errs => return errs
  | collection :: order, errs => do
    let errs ← b.batchCollection collection errs
    batchCollections order errs

/-- The collections of the items, in order of first appearance. -/
def order : List String := (b.items.map fun it => it.command.collection).eraseDups

/-- Apply a run of fast-mode writes: for each item its failure, if it failed. -/
def ingestBatch : Prog Storage (List (Option IngestErr)) := do
  let errs ← b.batchCollections b.order fun _ => none
  return (List.range b.items.length).map errs

end Batch

end Letopis
