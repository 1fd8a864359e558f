import Letopis.Domain.Reconstruct
import Letopis.Storage.Db

/-!
# The synchronous write path

`applyOne` is the single-write path: resolve the configuration, read the current state, check
the optimistic lock, plan the event, run the pre-store hooks, append the event, refresh the
current state and, on an interval boundary, save a snapshot. It is a program over the storage
calls; everything between two calls is pure.

Planning (`planEvent`) has no access to the store: it sees the command, the configuration and
the current state read. The version is assigned by the append loop, which reads the last
stored version and inserts one above it, again and again while the `{eid, v}` index refuses.

Rule evaluation and post-store hooks run after the write and touch nothing that is stored
here, so they are left out.
-/

namespace Letopis

open Interleaving

/-! ### Commands and results -/

/-- Which entry point a write targets. The kind travels as a string, so it may be unknown. -/
inductive Kind where
  | state
  | diff
  | delete
  | other (name : String)
  deriving DecidableEq

/-- A write, as the transport hands it over. -/
structure IngestCommand where
  collection : String
  entityID : String
  /-- The lifecycle transition, if the client states one. -/
  op : Option EntityOp := none
  /-- The optimistic lock, if there is one. -/
  expectedVersion : Option Int := none
  author : String := ""
  source : String := ""
  tsSource : Time := .zero
  eventID : String := ""
  requestID : String := ""
  clientIP : String := ""
  metadata : Fields := []
  state : Fields := []
  /-- A ready-made diff; absent is not the same as empty. -/
  changes : Option (List Change) := none
  flow : Option Flow := none
  deriving DecidableEq

/-- What a write produced. -/
structure IngestResult where
  entityID : String
  /-- The version stored, or the current one when nothing was stored. -/
  version : Nat
  changesCount : Nat := 0
  op : Option EntityOp := none
  noChanges : Bool := false
  /-- The write was accepted asynchronously. -/
  async : Bool := false
  /-- The tracking ticket of an asynchronous write. -/
  ticket : String := ""
  /-- The write repeats one that is stored already. -/
  deduplicated : Bool := false
  deriving DecidableEq

/-- The write has stored an event. -/
def IngestResult.stored (r : IngestResult) : Bool :=
  !r.noChanges && !r.async && !r.deduplicated

/-- Why a write failed. -/
inductive IngestErr where
  /-- The entity's version is not the expected one, or the append did not converge. -/
  | versionConflict
  | duplicateEvent
  /-- The diff does not apply to the current state. -/
  | invalidDiff (cause : DiffErr)
  /-- The diff applies, but its result is not an object. -/
  | resultNotObject
  | unknownKind (name : String)
  /-- A fail-closed plugin rejected the write. -/
  | failClosed (plugin cause : String)
  /-- Appending the event of an entity failed. -/
  | appendFailed (collection entityID : String) (cause : StoreErr)
  | appendBatchFailed (collection : String) (count : Nat) (cause : StoreErr)
  | store (cause : StoreErr)
  deriving DecidableEq

/-! ### Pre-store hooks -/

/-- What a pre-store plugin can read of the planned event. -/
structure EventDraft where
  collection : String
  entityID : String
  op : EntityOp
  author : String
  source : String
  tsSource : Time
  changes : List Change
  flow : Option Flow

/-- The draft of an event. -/
def newDraft (collection : String) (ev : Event) : EventDraft :=
  ⟨collection, ev.entityID, ev.op, ev.author, ev.source, ev.tsSource, ev.changes, ev.flow⟩

/-- What a pre-store plugin can read of the entity. -/
structure EntityView where
  /-- The most recent event, if there is one. -/
  lastEvent : Option Event
  current : Option CurrentState

/-- What a pre-store plugin can do to the planned event. -/
inductive DraftEdit where
  | setIntegrity (hash prevHash : String)
  | putMeta (key : String) (value : Json)

/-- Carry out one edit. -/
def DraftEdit.perform (ev : Event) : DraftEdit → Event
  | .setIntegrity hash prevHash => { ev with integrity := some ⟨hash, prevHash⟩ }
  | .putMeta key value => { ev with metadata := SortedAssoc.insert key value ev.metadata }

/-- A pre-store plugin: from what it can read, the edits it makes and the error it stops with,
if it does. -/
structure PreStorePlugin where
  name : String
  preStore : EventDraft → EntityView → List DraftEdit × Option String

/-- The configuration of a plugin that is enabled. -/
def enabledConfig (cfg : CollectionConfig) (p : PreStorePlugin) : Option PluginConfig :=
  (cfg.plugins.lookup p.name).filter fun pc => pc.enabled

/-- Some pre-store plugin is enabled for the collection. -/
def hasPreStore (pre : List PreStorePlugin) (cfg : CollectionConfig) : Bool :=
  pre.any fun p => (enabledConfig cfg p).isSome

/-- Run the enabled pre-store plugins in order. A fail-closed error aborts; after any other
error the plugins that follow still run. -/
def runPreStore (cfg : CollectionConfig) (collection : String) (prev : EntityView) :
    List PreStorePlugin → Event → Except IngestErr Event
  | [], ev => .ok ev
  | p :: pre, ev =>
    match enabledConfig cfg p with
    | none => runPreStore cfg collection prev pre ev
    | some pc =>
      let hook := p.preStore (newDraft collection ev) prev
      match hook.2 with
      | none => runPreStore cfg collection prev pre (hook.1.foldl DraftEdit.perform ev)
      | some err =>
        if pc.failMode = .failClosed then .error (.failClosed p.name err)
        else runPreStore cfg collection prev pre (hook.1.foldl DraftEdit.perform ev)

/-! ### Planning -/

/-- What the use-case is built from: the pre-store plugins, and whether snapshots are
materialized. -/
structure Ingester where
  pre : List PreStorePlugin := []
  snapshots : Bool := false

/-- The two clock readings of a write. -/
structure Stamps where
  received : Time
  /-- When the event was first about to be inserted. -/
  stored : Time

/-- The state a diff is computed against and the entity's current version. A missing or
deleted entity has an empty base; the version carries forward. -/
def baseState : Option CurrentState → Fields × Nat
  | none => ([], 0)
  | some cur => if cur.deleted then ([], cur.version) else (cur.state, cur.version)

/-- The version of the entity's current state, zero if it has none. -/
def Db.curVersion (db : Db) (c e : String) : Nat := (baseState ((db c).current e)).2

/-- The lifecycle transition of an event. -/
def resolveOp (explicit : Option EntityOp) (cur : Option CurrentState)
    (cfg : CollectionConfig) : EntityOp :=
  match explicit with
  | some op => op
  | none =>
    match cur with
    | some st => if st.deleted then firstOp else .update
    | none => firstOp
where
  /-- The op of a first event, or of one after a delete. -/
  firstOp : EntityOp := match cfg.firstEventOp with
    | .update => .update
    | .create => .create

/-- The check of the optimistic lock. -/
def versionMatches (expected : Option Int) (current : Nat) : Bool :=
  match expected with
  | none => true
  | some v => v = current

/-- The caller's address, alongside the client's metadata and never in place of it. -/
def serverMeta (client : Fields) (ip : String) : Fields :=
  if ip = "" then client
  else if (client.lookup "ip").isNone then SortedAssoc.insert "ip" (.str ip) client
  else client

/-- The event of a command, without a version. -/
def buildEvent (received : Time) (cmd : IngestCommand) (op : EntityOp)
    (changes : List Change) : Event :=
  { entityID := cmd.entityID, op, author := cmd.author, source := cmd.source,
    tsSource := cmd.tsSource, tsReceived := received, eventID := cmd.eventID,
    requestID := cmd.requestID, changes, metadata := serverMeta cmd.metadata cmd.clientIP,
    flow := cmd.flow }

/-- What a command comes to: nothing, or an event with the state and the deleted flag it
leads to. -/
inductive Plan where
  | noChange
  | write (ev : Event) (newState : Fields) (deleted : Bool)

/-- Turn a command into the event and new state it would produce. -/
def planEvent (received : Time) (cfg : CollectionConfig) (kind : Kind) (cmd : IngestCommand)
    (cur : Option CurrentState) : Except IngestErr Plan :=
  let base := (baseState cur).1
  let opts : DiffOptions := { arrayKeys := cfg.arrayKeys }
  match kind with
  | .state =>
    let changes := diff (.obj base) (.obj cmd.state) opts
    if changes = [] then .ok .noChange
    else .ok (.write (buildEvent received cmd (resolveOp cmd.op cur cfg) changes) cmd.state false)
  | .diff =>
    let op := resolveOp cmd.op cur cfg
    if op = .delete then
      .ok (.write (buildEvent received cmd op (cmd.changes.getD [])) base true)
    else
      -- create-with-state records per-field adds, not one opaque root replacement
      let planned : Except IngestErr (List Change × Fields) :=
        if op = .create ∧ cmd.changes = none then
          .ok (diff (.obj []) (.obj cmd.state) opts, cmd.state)
        else
          match apply (.obj base) (cmd.changes.getD []) with
          | .error e => .error (.invalidDiff e)
          | .ok (.obj m) => .ok (cmd.changes.getD [], m)
          | .ok _ => .error .resultNotObject
      match planned with
      | .error e => .error e
      | .ok (changes, newState) =>
        if changes = [] then .ok .noChange
        else .ok (.write (buildEvent received cmd op changes) newState false)
  | .delete => .ok (.write (buildEvent received cmd .delete []) base true)
  | .other name => .error (.unknownKind name)

/-! ### The programs -/

/-- The entity's current state, if there is one. -/
def load (collection entityID : String) :
    Prog Storage (Except IngestErr (Option CurrentState)) := do
  match ← Storage.ask (.getCurrent collection entityID) with
  | .ok cur => return .ok (some cur)
  | .error .notFound => return .ok none
  | .error e => return .error (.store e)

/-- The entity's most recent event, if there is one. -/
def lastEvent (collection entityID : String) : Prog Storage (Except IngestErr (Option Event)) := do
  match ← Storage.ask (.lastEvent collection entityID) with
  | .ok ev => return .ok (some ev)
  | .error .notFound => return .ok none
  | .error e => return .error (.store e)

/-- The two reads every write begins with. -/
def prepare (cmd : IngestCommand) :
    Prog Storage (Except IngestErr (CollectionConfig × Option CurrentState)) := do
  match ← Storage.ask (.ensureCollection cmd.collection) with
  | .error e => return .error (.store e)
  | .ok cfg =>
    match ← load cmd.collection cmd.entityID with
    | .error e => return .error e
    | .ok cur => return .ok (cfg, cur)

/-- How often the append loop tries. -/
def maxAppendRetries : Nat := 16

/-- The event as it is inserted after the last version was read. -/
def Event.at (ev : Event) (stored : Time) (last : Nat) : Event :=
  { ev with version := last + 1, tsStored := if ev.tsStored.isZero then stored else ev.tsStored }

/-- The read-tail/insert loop: a loser of the `{eid, v}` race re-reads and tries the next
version. -/
def appendLoop (collection : String) (stored : Time) :
    Nat → Event → Prog Storage (Except IngestErr Event)
  | 0, _ => return .error .versionConflict
  | n + 1, ev => do
    match ← Storage.ask (.lastVersion collection ev.entityID) with
    | .error e => return .error (.store e)
    | .ok last =>
      match ← Storage.ask (.insertEvent collection (ev.at stored last)) with
      | .ok () => return .ok (ev.at stored last)
      | .error e =>
        if isDupKeyOn e .eventVersion then appendLoop collection stored n (ev.at stored last)
        else if isDupKeyOn e .eventID then return .error .duplicateEvent
        else return .error (.appendFailed collection ev.entityID e)

/-- Append an event under the next version. -/
def appendEvent (collection : String) (stored : Time) (ev : Event) :
    Prog Storage (Except IngestErr Event) :=
  appendLoop collection stored maxAppendRetries ev

/-- Append the event and refresh the current state: two separate writes. -/
def commitEvent (stored : Time) (cmd : IngestCommand) (ev : Event) (newState : Fields)
    (deleted : Bool) : Prog Storage (Except IngestErr Event) := do
  match ← appendEvent cmd.collection stored ev with
  | .error e => return .error e
  | .ok ev =>
    match ← Storage.ask (.upsertCurrent cmd.collection
      ⟨cmd.entityID, ev.version, ev.tsReceived, deleted, newState⟩) with
    | .error e => return .error (.store e)
    | .ok () => return .ok ev

/-- Persist a snapshot at an interval boundary. A failure is logged and otherwise ignored. -/
def buildSnapshot (enabled : Bool) (collection : String) (snap : Snapshot) (interval : Int) :
    Prog Storage Unit := do
  if enabled && shouldSnapshot snap.version interval then
    let _ ← Storage.ask (.saveSnapshot collection snap)
    return ()
  else return ()

/-- The pre-store hooks of a planned event. The last event is read only if some hook is
enabled. -/
def preStore (ing : Ingester) (cfg : CollectionConfig) (cmd : IngestCommand) (ev : Event)
    (cur : Option CurrentState) : Prog Storage (Except IngestErr Event) := do
  if hasPreStore ing.pre cfg then
    match ← lastEvent cmd.collection cmd.entityID with
    | .error e => return .error e
    | .ok last => return runPreStore cfg cmd.collection ⟨last, cur⟩ ing.pre ev
  else return .ok ev

/-- The single-write path shared by strict mode and the worker. -/
def applyOne (ing : Ingester) (now : Stamps) (kind : Kind) (cmd : IngestCommand) :
    Prog Storage (Except IngestErr IngestResult) := do
  match ← prepare cmd with
  | .error e => return .error e
  | .ok (cfg, cur) =>
    let curVersion := (baseState cur).2
    if ¬ versionMatches cmd.expectedVersion curVersion then return .error .versionConflict
    else
      match planEvent now.received cfg kind cmd cur with
      | .error e => return .error e
      | .ok .noChange =>
        return .ok { entityID := cmd.entityID, version := curVersion, noChanges := true }
      | .ok (.write ev newState deleted) =>
        match ← preStore ing cfg cmd ev cur with
        | .error e => return .error e
        | .ok ev =>
          match ← commitEvent now.stored cmd ev newState deleted with
          | .error .duplicateEvent =>
            -- the original write is durable already; `cur_*` stays as it is
            return .ok { entityID := cmd.entityID, version := curVersion, deduplicated := true }
          | .error e => return .error e
          | .ok ev =>
            buildSnapshot ing.snapshots cmd.collection
              ⟨cmd.entityID, ev.version, ev.tsReceived, deleted, newState⟩ cfg.snapshotInterval
            return .ok { entityID := cmd.entityID, version := ev.version,
                         changesCount := ev.changes.length, op := some ev.op }

/-- One write: who carries it out, when, and what it asks for. -/
structure Write where
  ing : Ingester
  now : Stamps
  kind : Kind
  cmd : IngestCommand

/-- A write of a full state with nothing else stated: no op, no lock, no event id. -/
def Write.ofState (c e : String) (state : Fields) : Write :=
  ⟨{}, ⟨⟨1⟩, ⟨1⟩⟩, .state, { collection := c, entityID := e, state }⟩

/-- The program of a write. -/
def Write.prog (w : Write) : Prog Storage (Except IngestErr IngestResult) :=
  applyOne w.ing w.now w.kind w.cmd

end Letopis
