import Letopis.Domain.Collection
import Letopis.Domain.Flow
import Letopis.Storage.Db
import Letopis.Storage.Names

/-!
# The database of a tenant

For each logical collection there may be a document with its settings, and physical collections of
events, current states and snapshots. The names under which there is a document or a collection of
events are those that are listed. The activities are in a collection of their own.

The write path and the reads of one collection see the database as a `Db`.
-/

namespace Letopis

open List

/-- What is stored for one logical collection. -/
structure CollData where
  /-- The settings, if there is a document. -/
  config : Option StoredConfig := none
  /-- The events, in insertion order, if there is a collection of them. -/
  events : Option (List Event) := none
  /-- The current states, one for each entity. -/
  current : List CurrentState := []
  snapshots : List Snapshot := []

/-- The collection is there: it has settings or events. -/
def CollData.present (d : CollData) : Bool := d.config.isSome || d.events.isSome

/-- The collection as reads and writes see it. -/
def CollData.toColl (c : String) (d : CollData) : Coll where
  config := (d.config.getD { name := c }).effective
  events := d.events.getD []
  current e := d.current.find? fun st => st.entityID = e
  snapshots := d.snapshots

/-- The database of a tenant. -/
structure Database where
  coll : String → CollData
  names : List String
  sorted : names.Pairwise (· < ·)
  mem_names : ∀ c, c ∈ names ↔ (coll c).present = true
  /-- Every name was checked when the collection was created. -/
  logical : ∀ c ∈ names, logicalName c = true
  activities : List Activity := []

/-- The counters of a collection. -/
structure CollectionStats where
  entities : Nat
  events : Nat
  /-- When the last event was stored, zero if there is none. -/
  lastEventAt : Time

/-- An entry of the listing of collections. -/
structure CollectionSummary where
  name : String
  stats : CollectionStats
  config : StoredConfig

namespace Database

/-- The database as reads and writes of one collection see it. -/
def toDb (db : Database) : Db := fun c => (db.coll c).toColl c

/-- An empty database. -/
def empty : Database where
  coll _ := {}
  names := []
  sorted := List.Pairwise.nil
  mem_names c := by simp [CollData.present]
  logical c h := absurd h not_mem_nil

/-- A database with one collection. -/
def single (c : String) (hc : logicalName c = true) (d : CollData) (hd : d.present = true) :
    Database where
  coll := Function.update (fun _ => {}) c d
  names := [c]
  sorted := pairwise_singleton ..
  mem_names c' := by
    by_cases h : c' = c
    · subst h
      simp [hd]
    · simp [h, CollData.present]
  logical c' h := by rwa [mem_singleton.mp h]

theorem names_filter_congr {db db' : Database} {q : String → Bool}
    (h : ∀ c, q c = true → db.coll c = db'.coll c) : db.names.filter q = db'.names.filter q := by
  have hsorted : ∀ d : Database, (d.names.filter q).Pairwise (· < ·) :=
    fun d => d.sorted.sublist filter_sublist
  refine List.Perm.eq_of_pairwise (fun a b _ _ hab hba => absurd hba hab.asymm)
    (hsorted db) (hsorted db') ?_
  refine (perm_ext_iff_of_nodup ((hsorted db).imp ne_of_lt) ((hsorted db').imp ne_of_lt)).mpr
    fun c => ?_
  rw [mem_filter, mem_filter, db.mem_names, db'.mem_names]
  exact and_congr_left fun hc => by rw [h c hc]

/-! ### Listings -/

/-- The counters of a collection. -/
def stats (db : Database) (c : String) : CollectionStats where
  entities := (db.coll c).current.length
  events := ((db.coll c).events.getD []).length
  lastEventAt := ((((db.coll c).events.getD []).getLast?).map Event.tsStored).getD .zero

/-- The entry of a collection; one without settings has the defaults. -/
def summary (db : Database) (c : String) : CollectionSummary where
  name := c
  stats := db.stats c
  config := ((db.coll c).config.getD { name := c }).withDefaults

/-- The listing of collections. -/
def listCollections (db : Database) : List CollectionSummary := db.names.map db.summary

/-! ### Flows -/

/-- The activities of a flow, in the order in which they were received. -/
def flowActivities (db : Database) (flowID : String) : List Activity :=
  (db.activities.filter fun a => a.flowID = flowID).insertionSort
    fun a b => a.tsReceived.ns ≤ b.tsReceived.ns

/-- The events of a flow, collection by collection, in the order in which they were received. -/
def flowEvents (db : Database) (flowID : String) : List FlowEvent :=
  db.names.flatMap fun c =>
    ((((db.coll c).events.getD []).filter fun ev => (ev.flow.map Flow.id) = some flowID
      ).insertionSort fun a b => a.tsReceived.ns ≤ b.tsReceived.ns).map fun ev => ⟨c, ev⟩

end Database

end Letopis
