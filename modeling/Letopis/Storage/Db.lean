import Mathlib.Data.List.Infix
import Mathlib.Data.List.MinMax
import Mathlib.Data.List.Sort
import Letopis.Domain.Event
import Letopis.Interleaving.Prog

/-!
# The store

One tenant's database: for each logical collection its effective configuration, its events
(`ev_*`, in the order in which they were inserted), the current state of each entity
(`cur_*`) and the snapshots (`sn_*`). `Call` lists the storage calls of the write and read
paths, each of them one round trip to the server and hence one atomic step; `handle` answers
them. A call may fail without any effect, or fail after its effect has landed (a lost reply),
which for a read is the same.

The two unique indexes of an events collection are what an insertion checks: `{eid, v}`, and
`{event_id}`, which is sparse and so ignores events without one. The client tells the two
violations apart by looking for the index name in the text of the server's error. That text
is the server's own; `Server` assumes of it what the client's comment says, that it holds the
index name.
-/

namespace Letopis

open Interleaving

/-! ### Queries -/

/-- The field a history is ordered by. -/
inductive OrderField where
  | version
  | source
  | received
  deriving DecidableEq

/-- The direction of an ordering. -/
inductive SortOrder where
  | asc
  | desc
  deriving DecidableEq

/-- The sort key of the last event of the previous page. -/
structure Position where
  version : Int
  ts : Time := .zero

/-- What `ListEvents` selects; empty and zero fields impose no constraint. -/
structure EventFilter where
  entityID : String := ""
  /-- The start of the received-time window. -/
  tsFrom : Time := .zero
  tsTo : Time := .zero
  author : String := ""
  op : Option EntityOp := none
  /-- A path the event touches, at or under. -/
  path : String := ""
  source : String := ""
  orderBy : OrderField := .version
  order : SortOrder := .asc
  limit : Nat := 0
  after : Option Position := none
  maxVersion : Int := 0

namespace EventFilter

/-- The value of a time ordering. -/
def sortTime (f : EventFilter) (ev : Event) : Int :=
  match f.orderBy with
  | .version => 0
  | .source => ev.tsSource.ns
  | .received => ev.tsReceived.ns

/-- A path of an event is the given one or lies under it: the pattern
`^path($|\.|\[)`, where `$` also matches before a final newline. -/
def pathMatches (path p : List Char) : Bool :=
  path.isPrefixOf p &&
    match p.drop path.length with
    | [] | ['\n'] | '.' :: _ | '[' :: _ => true
    | _ => false

/-- A path is matched by what it begins with, if a dot, a bracket or nothing comes after it. -/
theorem pathMatches_iff {path p : List Char} : pathMatches path p = true ↔
    ∃ tail, p = path ++ tail ∧
      (tail = [] ∨ tail = ['\n'] ∨ (∃ t, tail = '.' :: t) ∨ ∃ t, tail = '[' :: t) := by
  rw [pathMatches, Bool.and_eq_true, List.isPrefixOf_iff_prefix]
  constructor
  · rintro ⟨⟨tail, rfl⟩, h⟩
    refine ⟨tail, rfl, ?_⟩
    rw [List.drop_left] at h
    split at h
    · exact .inl rfl
    · exact .inr (.inl rfl)
    · exact .inr (.inr (.inl ⟨_, rfl⟩))
    · exact .inr (.inr (.inr ⟨_, rfl⟩))
    · cases h
  · rintro ⟨tail, rfl, htail⟩
    refine ⟨List.prefix_append _ _, ?_⟩
    rw [List.drop_left]
    rcases htail with rfl | rfl | ⟨t, rfl⟩ | ⟨t, rfl⟩ <;> rfl

/-- The event comes after the cursor in the sort order. -/
def afterCursor (f : EventFilter) (ev : Event) (pos : Position) : Bool :=
  let ahead (a b : Int) : Bool := if f.order = .desc then b < a else a < b
  match f.orderBy with
  | .version => ahead pos.version ev.version
  | .source | .received => ahead pos.ts.ns (f.sortTime ev) ||
      (f.sortTime ev = pos.ts.ns && ahead pos.version ev.version)

/-- `historyFilter`: the event is selected. -/
def selects (f : EventFilter) (ev : Event) : Bool :=
  (f.entityID = "" || ev.entityID = f.entityID) &&
  (f.op.isNone || f.op = some ev.op) &&
  (f.author = "" || ev.author = f.author) &&
  (f.source = "" || ev.source = f.source) &&
  (f.tsFrom.isZero || f.tsFrom.ns ≤ ev.tsReceived.ns) &&
  (f.tsTo.isZero || ev.tsReceived.ns ≤ f.tsTo.ns) &&
  (f.path = "" || ev.changes.any fun ch => pathMatches f.path.toList ch.path.toList) &&
  (match f.after with
    | none => true
    | some pos => f.afterCursor ev pos) &&
  (f.maxVersion ≤ 0 || ev.version ≤ f.maxVersion)

/-- `historyOptions`: the order of the results, ties broken by version. -/
def precedes (f : EventFilter) (a b : Event) : Bool :=
  let le (x y : Event) : Bool := f.sortTime x < f.sortTime y ||
    (f.sortTime x = f.sortTime y && x.version ≤ y.version)
  if f.order = .desc then le b a else le a b

/-- The selected events, ordered and cut to the limit. -/
def list (f : EventFilter) (events : List Event) : List Event :=
  let sorted := (events.filter fun ev => f.selects ev).insertionSort fun a b => f.precedes a b
  if f.limit = 0 then sorted else sorted.take f.limit

end EventFilter

/-! ### The database -/

/-- What is stored for one logical collection. -/
structure Coll where
  config : CollectionConfig := {}
  events : List Event := []
  current : String → Option CurrentState := fun _ => none
  snapshots : List Snapshot := []

/-- A tenant's database, by logical collection name. -/
abbrev Db : Type := String → Coll

namespace Db

/-- The events of an entity, in insertion order. -/
def hist (db : Db) (c e : String) : List Event := (db c).events.filter fun ev => ev.entityID = e

/-- The highest version stored for an entity, or zero. -/
def top (db : Db) (c e : String) : Nat :=
  (((db.hist c e).argmax Event.version).map Event.version).getD 0

/-- Append an event. -/
def append (db : Db) (c : String) (ev : Event) : Db :=
  Function.update db c { db c with events := (db c).events ++ [ev] }

/-- Replace the current state of an entity. -/
def upsert (db : Db) (c : String) (st : CurrentState) : Db :=
  Function.update db c { db c with current := Function.update (db c).current st.entityID st }

/-- Replace the snapshot of an entity at a version. -/
def save (db : Db) (c : String) (snap : Snapshot) : Db :=
  Function.update db c { db c with
    snapshots := ((db c).snapshots.filter fun s =>
      ¬ (s.entityID = snap.entityID ∧ s.version = snap.version)) ++ [snap] }

/-- The unique `{eid, v}` index has no entry for the event yet. -/
def VersionFree (db : Db) (c : String) (ev : Event) : Prop :=
  ∀ x ∈ (db c).events, ¬ (x.entityID = ev.entityID ∧ x.version = ev.version)

instance (db : Db) (c : String) (ev : Event) : Decidable (db.VersionFree c ev) :=
  inferInstanceAs (Decidable (∀ x ∈ (db c).events, _))

/-- The sparse unique `{event_id}` index has no entry for the event yet. -/
def EventIDFree (db : Db) (c : String) (ev : Event) : Prop :=
  ev.eventID = "" ∨ ∀ x ∈ (db c).events, x.eventID ≠ ev.eventID

instance (db : Db) (c : String) (ev : Event) : Decidable (db.EventIDFree c ev) :=
  inferInstanceAs (Decidable (_ ∨ ∀ x ∈ (db c).events, _))

end Db

/-! ### Errors of the store -/

/-- The unique indexes of an events collection. -/
inductive UniqueIndex where
  | eventVersion
  | eventID
  deriving DecidableEq

/-- The names the indexes are created with. -/
def UniqueIndex.name : UniqueIndex → String
  | .eventVersion => "uniq_eid_v"
  | .eventID => "uniq_event_id"

/-- `strings.Contains`. -/
def containsText (s sub : String) : Bool := sub.toList <:+: s.toList

/-- What the server's duplicate-key error says, for a collection, an index and the event that
was refused. -/
structure Server where
  dupText : String → UniqueIndex → Event → String
  /-- The server embeds the index name in the error message. -/
  names_index : ∀ c i ev, containsText (dupText c i ev) i.name = true

/-- The text of a MongoDB server, up to the key. -/
def Server.mongo : Server where
  dupText c i _ := "E11000 duplicate key error collection: ev_" ++ c ++ " index: " ++ i.name
  names_index c i _ := by
    simp only [containsText, String.toList_append, decide_eq_true_eq]
    exact List.IsSuffix.isInfix (List.suffix_append _ _)

/-- An error of the store. -/
inductive StoreErr where
  | notFound
  | dupKey (text : String)
  | failed
  deriving DecidableEq

/-- The error is a duplicate-key error on the named index, as far as its text says. -/
def isDupKeyOn (e : StoreErr) (i : UniqueIndex) : Bool :=
  match e with
  | .dupKey text => containsText text i.name
  | .notFound | .failed => false

/-! ### Calls -/

/-- The calls to the storage. -/
inductive Call where
  | ensureCollection (collection : String)
  | getCurrent (collection entityID : String)
  | upsertCurrent (collection : String) (st : CurrentState)
  | lastVersion (collection entityID : String)
  | insertEvent (collection : String) (ev : Event)
  | lastEvent (collection entityID : String)
  | listEvents (collection : String) (f : EventFilter)
  | saveSnapshot (collection : String) (snap : Snapshot)
  | nearestSnapshot (collection entityID : String) (maxVersion : Int)

/-- An event or a current state is being written. -/
def Call.isCommit : Call → Bool
  | .insertEvent _ _ | .upsertCurrent _ _ => true
  | _ => false

/-- The call inserts an event. -/
def Call.isInsert : Call → Bool
  | .insertEvent _ _ => true
  | _ => false

/-- What a call returns when it succeeds. -/
abbrev Call.Value : Call → Type
  | .ensureCollection _ => CollectionConfig
  | .getCurrent _ _ => CurrentState
  | .lastVersion _ _ => Nat
  | .lastEvent _ _ => Event
  | .listEvents _ _ => List Event
  | .nearestSnapshot _ _ _ => Snapshot
  | .upsertCurrent _ _ | .insertEvent _ _ | .saveSnapshot _ _ => Unit

/-- The interface of the storage. -/
abbrev Storage : Interface := ⟨Call, fun c => Except StoreErr c.Value⟩

/-- Make one call. -/
abbrev Storage.ask (call : Call) : Prog Storage (Except StoreErr call.Value) :=
  Prog.ask (I := Storage) call

/-- A missing document is `ErrNotFound`. -/
def orNotFound {α : Type} : Option α → Except StoreErr α
  | none => .error .notFound
  | some a => .ok a

/-- Answer a call that does not fail. What is read is what was stored; for what a driver changes
about it, see `ReadBack`. -/
def serve (srv : Server) : (c : Call) → Db → Except StoreErr c.Value × Db
  | .ensureCollection c, db => (.ok (db c).config, db)
  | .getCurrent c e, db => (orNotFound ((db c).current e), db)
  | .upsertCurrent c st, db => (.ok (), db.upsert c st)
  | .lastVersion c e, db => (.ok (db.top c e), db)
  | .insertEvent c ev, db =>
    if ¬ db.VersionFree c ev then (.error (.dupKey (srv.dupText c .eventVersion ev)), db)
    else if ¬ db.EventIDFree c ev then (.error (.dupKey (srv.dupText c .eventID ev)), db)
    else (.ok (), db.append c ev)
  | .lastEvent c e, db => (orNotFound ((db.hist c e).argmax Event.version), db)
  | .listEvents c f, db => (.ok (f.list (db c).events), db)
  | .saveSnapshot c snap, db => (.ok (), db.save c snap)
  | .nearestSnapshot c e maxVersion, db =>
    (orNotFound (((db c).snapshots.filter fun s =>
      s.entityID = e ∧ s.version ≤ maxVersion).argmax Snapshot.version), db)

/-- How a call fails: not at all, without effect, or after its effect has landed. -/
inductive Fault where
  | none
  | before
  | after
  deriving DecidableEq

/-- Answer a call under a fault. -/
def handle (srv : Server) : Handler Storage Fault Db := fun c f db =>
  match f with
  | .none => serve srv c db
  | .before => (.error .failed, db)
  | .after => (.error .failed, (serve srv c db).2)

end Letopis
