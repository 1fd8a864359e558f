import Letopis.ForMathlib.Paging
import Letopis.Server.Read

/-!
# The pages of a history

A page of a history has a cursor if it is full. The cursor is the position of the last event of the
page, and the events of the next page are those after it: later in the field that the history is
ordered by, or equal there and with a greater version, all of it the other way around if the history
is descending. The predicate and the sort are written separately; both compare the same pair
(`EventFilter.precedes_iff`, `EventFilter.afterCursor_iff`). A version is used once in the history
of an entity, so the pairs of its events are distinct. A time that is not set is stored as the zero
time and takes part like any other.
-/

namespace Letopis

open Interleaving List

namespace EventFilter

variable (f : EventFilter)

/-! ### The order -/

/-- The pair that events are compared by, turned around for a descending order. -/
def place (t v : Int) : Int ×ₗ Int := if f.order = .desc then toLex (-t, -v) else toLex (t, v)

/-- Where an event comes in the listing. -/
def key (ev : Event) : Int ×ₗ Int := f.place (f.sortTime ev) ev.version

/-- Where a cursor points to in the listing. -/
def cursorKey (pos : Position) : Int ×ₗ Int :=
  f.place (if f.orderBy = .version then 0 else pos.ts.ns) pos.version

/-- An event comes before another one in the order of the sort field and the version. -/
def Before (a b : Event) : Prop :=
  if f.order = .desc then
    f.sortTime b < f.sortTime a ∨ f.sortTime b = f.sortTime a ∧ b.version < a.version
  else f.sortTime a < f.sortTime b ∨ f.sortTime a = f.sortTime b ∧ a.version < b.version

variable {f}

private theorem before_iff {a b : Event} : f.Before a b ↔ f.key a < f.key b := by
  simp only [Before, key, place]
  split_ifs
  · rw [Prod.Lex.toLex_lt_toLex]
    omega
  · rw [Prod.Lex.toLex_lt_toLex]
    omega

private theorem precedes_iff {a b : Event} : f.precedes a b = true ↔ f.key a ≤ f.key b := by
  simp only [precedes, key, place]
  split_ifs
  · rw [Prod.Lex.toLex_le_toLex]
    simp only [Bool.or_eq_true, Bool.and_eq_true, decide_eq_true_eq]
    omega
  · rw [Prod.Lex.toLex_le_toLex]
    simp only [Bool.or_eq_true, Bool.and_eq_true, decide_eq_true_eq]
    omega

private theorem afterCursor_iff {ev : Event} {pos : Position} :
    f.afterCursor ev pos = true ↔ f.cursorKey pos < f.key ev := by
  rcases hby : f.orderBy with _ | _ | _ <;> rcases hdir : f.order with _ | _ <;>
    simp [afterCursor, cursorKey, key, place, sortTime, hby, hdir, Prod.Lex.toLex_lt_toLex] <;>
    omega

private theorem cursorKey_positionOf (ev : Event) :
    f.cursorKey (positionOf ev f.orderBy) = f.key ev := by
  rw [cursorKey, key, sortTime]
  cases f.orderBy <;> rfl

private theorem version_eq_of_key {a b : Event} (h : f.key a = f.key b) :
    a.version = b.version := by
  simp only [key, place] at h
  split_ifs at h
  · have := congrArg (fun k => (ofLex k).2) h
    simpa using this
  · have := congrArg (fun k => (ofLex k).2) h
    simpa using this

/-! ### Pages -/

/-- The filter that a request for the history of an entity comes to. -/
def about (f : EventFilter) (e : String) (cursor : Option Position) : EventFilter :=
  { f with entityID := e, after := cursor }

private theorem selects_about (e : String) (pos : Position) (ev : Event) :
    (f.about e (some pos)).selects ev =
      ((f.about e none).selects ev && decide (f.cursorKey pos < f.key ev)) := by
  have hafter : (f.about e (some pos)).afterCursor ev pos =
      decide (f.cursorKey pos < f.key ev) := by
    rw [Bool.eq_iff_iff, decide_eq_true_eq]
    exact afterCursor_iff (f := f.about e (some pos))
  simp only [selects, about] at hafter ⊢
  rw [hafter]
  cases decide (f.cursorKey pos < f.key ev)
  · simp only [Bool.and_false, Bool.false_and]
  · simp only [Bool.and_true]
    rfl

/-- What is left of the history of an entity from a cursor on. -/
def rest (f : EventFilter) (events : List Event) (e : String) (cursor : Option Position) :
    List Event :=
  (events.filter fun ev => (f.about e cursor).selects ev).insertionSort fun a b => f.precedes a b

private theorem nodup_key {events : List Event} {e : String} (he : e ≠ "")
    (hv : ((events.filter fun ev => ev.entityID = e).map Event.version).Nodup) :
    ((events.filter fun ev => (f.about e none).selects ev).map f.key).Nodup := by
  have hsub : (events.filter fun ev => (f.about e none).selects ev).Sublist
      (events.filter fun ev => ev.entityID = e) := by
    refine monotone_filter_right events fun ev hev => ?_
    simp only [selects, about, he, decide_false, Bool.false_or, Bool.and_eq_true] at hev
    exact hev.1.1.1.1.1.1.1.1
  have hver := hv.sublist (hsub.map Event.version)
  rw [List.Nodup, pairwise_map] at hver ⊢
  exact hver.imp fun {a b} hne heq => hne (version_eq_of_key heq)

section

variable {events : List Event} {e : String}
  (hkeys : ((events.filter fun ev => (f.about e none).selects ev).map f.key).Nodup)

include hkeys

private theorem ascending_rest : Paging.Ascending f.key (f.rest events e none) :=
  Paging.ascending_insertionSort (fun _ _ => precedes_iff) hkeys

private theorem rest_some (pos : Position) :
    f.rest events e (some pos) =
      (f.rest events e none).filter fun ev => f.cursorKey pos < f.key ev := by
  have hsort := Paging.insertionSort_filter (fun a b => precedes_iff (f := f) (a := a) (b := b))
    hkeys fun ev => f.cursorKey pos < f.key ev
  rw [rest, rest, ← hsort, filter_filter]
  simp only [selects_about, Bool.and_comm]

/-- After the position of the last event of a full page comes what follows the page. -/
theorem rest_positionOf {cursor : Option Position} {n : Nat} {x : Event}
    (hx : (f.rest events e cursor)[n]? = some x) :
    f.rest events e (some (positionOf x f.orderBy)) = (f.rest events e cursor).drop (n + 1) := by
  rw [rest_some hkeys, cursorKey_positionOf]
  cases cursor with
  | none => exact (ascending_rest hkeys).filter_lt_getElem hx
  | some pos =>
    rw [rest_some hkeys] at hx ⊢
    exact (ascending_rest hkeys).filter_lt_of_filter hx

end

end EventFilter

/-! ### Requests -/

/-- An event in the native format. -/
def nativeDTO (ev : Event) : EventDTO :=
  eventToDTO ev (.native (ev.changes.map Change.toDTO))

private theorem historyBody_native (e : String) (events : List Event) (f : EventFilter) :
    historyBody e events f .native = .history e (events.map nativeDTO)
      (if 0 < f.limit ∧ events.length = f.limit then
        events.getLast?.map fun ev => positionOf ev f.orderBy
      else none) := by
  have hmap : (events.mapM fun ev => (projectChanges ev.changes .native).map (eventToDTO ev)) =
      some (events.map nativeDTO) :=
    mapM_pure
  rw [historyBody, hmap]

/-- A request for the history of an entity in the native format. -/
def historyRequest (c e : String) (f : EventFilter) (cursor : Option Position) : ReadRequest :=
  .history c e (.ok ({ f with after := cursor }, .native))

/-- The events of a response and its cursor. -/
def ReadResponse.historyPage : ReadResponse → List EventDTO × Option Position
  | .history _ events nextCursor => (events, nextCursor)
  | _ => ([], none)

section Requests

variable (srv : Server) (snapshots : Bool) {p : Principal} (db : Database) {c e : String}
  (f : EventFilter)

/-- Ask for a page of the history of an entity. -/
def fetchHistory (srv : Server) (snapshots : Bool) (p : Principal) (db : Database) (c e : String)
    (f : EventFilter) (cursor : Option Position) : List EventDTO × Option Position :=
  ((historyRequest c e f cursor).respond srv snapshots p db).historyPage

private theorem fetchHistory_eq (hscope : p.hasScope .read = true)
    (hpath : pathGuard p c e = .ok ()) (hlimit : 0 < f.limit) (cursor : Option Position) :
    fetchHistory srv snapshots p db c e f cursor =
      (((f.rest (db.toDb c).events e cursor).take f.limit).map nativeDTO,
        if ((f.rest (db.toDb c).events e cursor).take f.limit).length = f.limit then
          ((f.rest (db.toDb c).events e cursor).take f.limit).getLast?.map
            fun ev => positionOf ev f.orderBy
        else none) := by
  have hlist : (f.about e cursor).list (db.toDb c).events =
      (f.rest (db.toDb c).events e cursor).take f.limit :=
    if_neg hlimit.ne'
  have hresp : (historyRequest c e f cursor).respond srv snapshots p db =
      historyBody e ((f.about e cursor).list (db.toDb c).events) (f.about e cursor) .native := by
    simp only [historyRequest, ReadRequest.respond, hscope, hpath, ReadHandlers.history]
    rfl
  rw [fetchHistory, hresp, hlist, historyBody_native]
  simp only [ReadResponse.historyPage, EventFilter.about, hlimit, true_and]

private theorem serves_fetchHistory (hscope : p.hasScope .read = true)
    (hpath : pathGuard p c e = .ok ()) (hlimit : 0 < f.limit)
    (hkeys : (((db.toDb c).events.filter fun ev => (f.about e none).selects ev).map f.key).Nodup) :
    Paging.Serves (fetchHistory srv snapshots p db c e f)
      (fun cursor => (f.rest (db.toDb c).events e cursor).map nativeDTO) f.limit := by
  refine ⟨fun cursor => ?_, fun cursor hlast => ?_, fun cursor next hnext => ?_⟩
  · rw [fetchHistory_eq srv snapshots db f hscope hpath hlimit]
    exact map_take
  · rw [fetchHistory_eq srv snapshots db f hscope hpath hlimit] at hlast
    rw [length_map]
    dsimp only at hlast
    split_ifs at hlast with hfull
    · -- a full page is not empty, so it has a cursor
      rw [Option.map_eq_none_iff, getLast?_eq_none_iff] at hlast
      rw [hlast, length_nil] at hfull
      omega
    · rw [length_take] at hfull
      omega
  · rw [fetchHistory_eq srv snapshots db f hscope hpath hlimit] at hnext
    dsimp only at hnext
    split_ifs at hnext with hfull
    obtain ⟨x, hx, rfl⟩ := Option.map_eq_some_iff.mp hnext
    have hlen : (f.rest (db.toDb c).events e cursor).length ≥ f.limit := by
      rw [length_take] at hfull
      omega
    have hget : (f.rest (db.toDb c).events e cursor)[f.limit - 1]? = some x := by
      rw [getLast?_eq_getElem?, hfull, getElem?_take_of_lt (by omega)] at hx
      exact hx
    refine ⟨fun hnil => ?_, ?_⟩
    · rw [map_eq_nil_iff] at hnil
      rw [hnil, length_nil] at hlen
      omega
    · rw [EventFilter.rest_positionOf hkeys hget, Nat.sub_add_cancel hlimit, map_drop]

end Requests

namespace EventFilter

/-- The event meets every criterion of the filter that is set. -/
structure Admits (f : EventFilter) (ev : Event) : Prop where
  op : ∀ op, f.op = some op → ev.op = op
  author : f.author ≠ "" → ev.author = f.author
  source : f.source ≠ "" → ev.source = f.source
  /-- Both ends of the window count, in received time. -/
  tsFrom : f.tsFrom ≠ .zero → f.tsFrom.ns ≤ ev.tsReceived.ns
  tsTo : f.tsTo ≠ .zero → ev.tsReceived.ns ≤ f.tsTo.ns
  /-- Some change is at the path or under it. -/
  path : f.path ≠ "" → ∃ ch ∈ ev.changes, ∃ tail, ch.path.toList = f.path.toList ++ tail ∧
    (tail = [] ∨ tail = ['\n'] ∨ (∃ t, tail = '.' :: t) ∨ ∃ t, tail = '[' :: t)
  maxVersion : 0 < f.maxVersion → ev.version ≤ f.maxVersion

private theorem selects_iff_admits {f : EventFilter} {e : String} (he : e ≠ "") {ev : Event} :
    (f.about e none).selects ev = true ↔ ev.entityID = e ∧ f.Admits ev := by
  have hop : f.op.isNone = true ∨ f.op = some ev.op ↔ ∀ op, f.op = some op → ev.op = op := by
    cases f.op <;> simp [eq_comm]
  have hzero : ∀ t : Time, t.isZero = true ↔ t = .zero := by
    rintro ⟨ns⟩
    simp [Time.isZero, Time.zero]
  have hall : (f.about e none).selects ev = true ↔
      (((((((ev.entityID = e ∧ ∀ op, f.op = some op → ev.op = op) ∧
        (f.author ≠ "" → ev.author = f.author)) ∧ (f.source ≠ "" → ev.source = f.source)) ∧
        (f.tsFrom ≠ .zero → f.tsFrom.ns ≤ ev.tsReceived.ns)) ∧
        (f.tsTo ≠ .zero → ev.tsReceived.ns ≤ f.tsTo.ns)) ∧
        (f.path ≠ "" → ∃ ch ∈ ev.changes, pathMatches f.path.toList ch.path.toList = true)) ∧
        (0 < f.maxVersion → (ev.version : Int) ≤ f.maxVersion)) := by
    rw [about, selects]
    simp only [he, decide_false, Bool.false_or, Bool.and_true, Bool.and_eq_true, Bool.or_eq_true,
      decide_eq_true_eq, any_eq_true, hop, hzero, or_iff_not_imp_left, not_le, ne_eq]
  simp only [hall, pathMatches_iff]
  constructor
  · rintro ⟨⟨⟨⟨⟨⟨⟨hent, hop⟩, hauthor⟩, hsource⟩, hfrom⟩, hto⟩, hpath⟩, hmax⟩
    exact ⟨hent, hop, hauthor, hsource, hfrom, hto, hpath, hmax⟩
  · rintro ⟨hent, h⟩
    exact ⟨⟨⟨⟨⟨⟨⟨hent, h.op⟩, h.author⟩, h.source⟩, h.tsFrom⟩, h.tsTo⟩, h.path⟩, h.maxVersion⟩

end EventFilter

/-- **The pages of a history.** If a version is used once in the history of an entity, then asking
for page after page ends, whatever the filter, the ordering, the direction and the limit. No page is
longer than the limit, and put together the pages are the matching events, each of them once, in the
order of the sort field and the version. An event matches if it meets the criteria that are set. -/
theorem history_pages (srv : Server) (snapshots : Bool) (p : Principal) (db : Database)
    (c e : String) (f : EventFilter) (hscope : p.hasScope .read = true)
    (hpath : pathGuard p c e = .ok ()) (hlimit : 0 < f.limit)
    (hv : ((db.toDb.hist c e).map Event.version).Nodup) :
    ∃ (evs : List Event) (pages : List (List EventDTO)),
      evs.Perm ((db.toDb.hist c e).filter fun ev => (f.about e none).selects ev) ∧
      (∀ ev, ev ∈ evs ↔ ev ∈ db.toDb.hist c e ∧ f.Admits ev) ∧
      evs.Pairwise f.Before ∧
      (∀ fuel, evs.length < fuel →
        Paging.walk (fetchHistory srv snapshots p db c e f) fuel none = some pages) ∧
      pages.flatten = evs.map nativeDTO ∧ ∀ page ∈ pages, page.length ≤ f.limit := by
  have he : e ≠ "" := by
    rintro rfl
    simp only [pathGuard, if_true] at hpath
    split_ifs at hpath
  have hkeys := EventFilter.nodup_key (f := f) he hv
  have hmatching : (db.toDb.hist c e).filter (fun ev => (f.about e none).selects ev) =
      (db.toDb c).events.filter fun ev => (f.about e none).selects ev := by
    rw [Db.hist, filter_filter]
    refine filter_congr fun ev _ => ?_
    by_cases hev : ev.entityID = e
    · simp [hev]
    · simp [EventFilter.selects, EventFilter.about, he, hev]
  obtain ⟨pages, hwalk, hflat, hlens⟩ :=
    (serves_fetchHistory srv snapshots db f hscope hpath hlimit hkeys).exists_walk hlimit none
  have hperm : (f.rest (db.toDb c).events e none).Perm
      ((db.toDb.hist c e).filter fun ev => (f.about e none).selects ev) := by
    rw [hmatching]
    exact perm_insertionSort _ _
  refine ⟨f.rest (db.toDb c).events e none, pages, hperm, fun ev => ?_, ?_, fun fuel hfuel => ?_,
    hflat, hlens⟩
  · have hent : ev ∈ db.toDb.hist c e → ev.entityID = e := fun hev => by
      simpa using (mem_filter.mp hev).2
    rw [hperm.mem_iff, mem_filter, EventFilter.selects_iff_admits he]
    exact and_congr_right fun hev => and_iff_right (hent hev)
  · exact (EventFilter.ascending_rest hkeys).imp EventFilter.before_iff.mpr
  · exact hwalk fuel (by rwa [length_map])

/-- Three events, two of them without a time of the source, by that time, the latest first, two to a
page. -/
theorem history_pages_unset :
    let p : Principal := ⟨⟨"acme", "", ""⟩, [.read], ["deals"]⟩
    let db : Database := .single "deals" rfl
      { events := some [{ entityID := "d1", version := 1, op := .create },
          { entityID := "d1", version := 2, op := .update, tsSource := ⟨5⟩ },
          { entityID := "d1", version := 3, op := .delete }] } rfl
    let f : EventFilter := { orderBy := .source, order := .desc, limit := 2 }
    ∃ (evs : List Event) (pages : List (List EventDTO)),
      evs.Perm ((db.toDb.hist "deals" "d1").filter fun ev => (f.about "d1" none).selects ev) ∧
      (∀ ev, ev ∈ evs ↔ ev ∈ db.toDb.hist "deals" "d1" ∧ f.Admits ev) ∧
      evs.Pairwise f.Before ∧
      (∀ fuel, evs.length < fuel →
        Paging.walk (fetchHistory .mongo true p db "deals" "d1" f) fuel none = some pages) ∧
      pages.flatten = evs.map nativeDTO ∧ ∀ page ∈ pages, page.length ≤ f.limit :=
  history_pages .mongo true _ _ "deals" "d1" _ rfl rfl (by decide) (by decide)

end Letopis
