import Letopis.Domain.Flow
import Letopis.Encoding.Text
import Letopis.ForMathlib.Paging

/-!
# The pages of a flow

The nodes of a flow are ordered by the time they were received and then by their ids. An id is put
together from texts, with a bar between them. The collection has no bar in it and the version is
made of digits, so the id can be taken apart again, whatever the entity is called
(`FlowNode.nodeID_event_inj`). No two nodes then have the same place in the order, there is one way
to sort them (`eq_sortedNodes`), and the pages are the sorted nodes (`flow_pages`).
-/

namespace Letopis

open List

/-- The nodes of a flow, in no particular order. -/
def flowNodes (activities : List Activity) (events : List FlowEvent) : List FlowNode :=
  activities.map FlowNode.activity ++ events.map FlowNode.event

/-- What an event of a flow is known by. -/
def FlowEvent.triple (ev : FlowEvent) : String × String × Nat :=
  (ev.collection, ev.event.entityID, ev.event.version)

namespace FlowNode

/-! ### Ids -/

private theorem nodeID_event_inj {x y : FlowEvent} (hx : '|' ∉ x.collection.toList)
    (hy : '|' ∉ y.collection.toList) (h : (event x).nodeID = (event y).nodeID) :
    x.triple = y.triple := by
  have hbar : "|".toList = ['|'] := rfl
  have htext := congrArg String.toList h
  simp only [nodeID, String.toList_append, append_assoc, append_cancel_left_eq, hbar,
    singleton_append] at htext
  -- the first bar ends the collection, the last one begins the version
  obtain ⟨hcoll, htext⟩ := Text.append_cons_inj hx hy htext
  obtain ⟨hentity, hversion⟩ := Text.append_cons_inj_last (notMem_repr rfl) (notMem_repr rfl) htext
  have hvalue := congrArg (fun ds => Nat.ofDigitChars 10 ds 0) hversion
  rw [FlowEvent.triple, FlowEvent.triple, String.toList_inj.mp hcoll, String.toList_inj.mp hentity]
  simpa [Nat.toString_eq_ofList_toDigits] using hvalue

private theorem nodeID_activity_inj {a b : Activity}
    (h : (activity a).nodeID = (activity b).nodeID) : a.activityID = b.activityID := by
  have htext := congrArg String.toList h
  simp only [nodeID, String.toList_append, append_cancel_left_eq] at htext
  exact String.toList_inj.mp htext

private theorem nodeID_activity_ne_event (a : Activity) (ev : FlowEvent) :
    (activity a).nodeID ≠ (event ev).nodeID := by
  intro h
  have hhead := congrArg (fun s => s.toList.head?) h
  simp [nodeID] at hhead

/-- **Ids.** If activities and events are told apart, so are the nodes. -/
theorem nodup_nodeID {activities : List Activity} {events : List FlowEvent}
    (hact : (activities.map Activity.activityID).Nodup)
    (hev : (events.map FlowEvent.triple).Nodup)
    (hbar : ∀ ev ∈ events, '|' ∉ ev.collection.toList) :
    ((flowNodes activities events).map nodeID).Nodup := by
  rw [flowNodes, map_append, map_map, map_map, nodup_append]
  refine ⟨?_, ?_, ?_⟩
  · exact (pairwise_map.mp hact).map _ fun a b hne h => hne (nodeID_activity_inj h)
  · rw [List.Nodup, pairwise_map] at hev ⊢
    refine hev.imp_of_mem fun {x y} hx hy hne h => ?_
    exact hne (nodeID_event_inj (hbar x hx) (hbar y hy) h)
  · rintro _ ha _ hb rfl
    obtain ⟨a, -, rfl⟩ := mem_map.mp ha
    obtain ⟨ev, -, h⟩ := mem_map.mp hb
    exact nodeID_activity_ne_event a ev h.symm

/-! ### The order -/

/-- The place of a position in the order of the nodes. -/
def key (p : FlowPosition) : Int ×ₗ String := toLex (p.ts.ns, p.id)

private theorem after_iff {n : FlowNode} {p : FlowPosition} :
    n.after p = true ↔ key p < key n.position := by
  simp [after, key, position, Prod.Lex.toLex_lt_toLex]

private theorem precedes_iff {a b : FlowNode} :
    a.precedes b = true ↔ key a.position ≤ key b.position := by
  simp only [precedes, key, position, Prod.Lex.toLex_le_toLex, Bool.or_eq_true, Bool.and_eq_true,
    decide_eq_true_eq, Bool.not_eq_true', decide_eq_false_iff_not, not_lt]

/-- A node comes before another one: it was received earlier, or at the same time and its id is
smaller. -/
def Before (a b : FlowNode) : Prop :=
  a.ts.ns < b.ts.ns ∨ a.ts.ns = b.ts.ns ∧ a.nodeID < b.nodeID

private theorem before_iff {a b : FlowNode} : a.Before b ↔ key a.position < key b.position := by
  simp [Before, key, position, Prod.Lex.toLex_lt_toLex]

end FlowNode

open FlowNode

/-! ### Pages -/

section Pages

variable {activities : List Activity} {events : List FlowEvent}

/-- The nodes of a flow in their order. -/
def sortedNodes (activities : List Activity) (events : List FlowEvent) : List FlowNode :=
  (flowNodes activities events).insertionSort fun a b => a.precedes b

variable (h : ((flowNodes activities events).map nodeID).Nodup)

include h

private theorem ascending_sortedNodes :
    Paging.Ascending (fun n => key n.position) (sortedNodes activities events) := by
  refine Paging.ascending_insertionSort (fun a b => precedes_iff) ?_
  rw [List.Nodup, pairwise_map] at h ⊢
  exact h.imp fun {a b} hne heq => hne (congrArg (fun k => (ofLex k).2) heq)

/-- **One order.** However the nodes are sorted, the result is the same. -/
theorem eq_sortedNodes {l : List FlowNode} (hperm : l.Perm (flowNodes activities events))
    (hl : l.Pairwise fun a b => a.precedes b = true) : l = sortedNodes activities events := by
  have hnodup : (l.map nodeID).Nodup := (hperm.map nodeID).nodup_iff.mpr h
  have hasc : Paging.Ascending (fun n => key n.position) l := by
    refine (hl.and (pairwise_map.mp hnodup)).imp fun {a b} hab => ?_
    exact lt_of_le_of_ne (precedes_iff.mp hab.1) fun heq =>
      hab.2 (congrArg (fun k => (ofLex k).2) heq)
  exact hasc.eq_of_perm (ascending_sortedNodes h)
    (hperm.trans (perm_insertionSort _ _).symm)

/-- What is left of a flow after a position. -/
def flowRest (activities : List Activity) (events : List FlowEvent) :
    Option FlowPosition → List FlowNode
  | none => sortedNodes activities events
  | some p => (sortedNodes activities events).filter fun n => key p < key n.position

private theorem assembleFlow_eq (after : Option FlowPosition) (limit : Nat) :
    assembleFlow activities events after limit =
      if 0 < limit ∧ limit < (flowRest activities events after).length then
        ((flowRest activities events after).take limit,
          ((flowRest activities events after)[limit - 1]?).map FlowNode.position)
      else (flowRest activities events after, none) := by
  cases after with
  | none => rfl
  | some p =>
    have hafter : (fun n : FlowNode => !n.after p) =
        fun n => !decide (key p < key n.position) := by
      funext n
      rw [Bool.eq_iff_iff]
      simp [← after_iff]
    have hrest : ((sortedNodes activities events).dropWhile fun n => !n.after p) =
        flowRest activities events (some p) := by
      rw [hafter]
      exact (ascending_sortedNodes h).dropWhile_eq_filter (key p)
    rw [← hrest]
    rfl

private theorem serves_assembleFlow {limit : Nat} (hlimit : 0 < limit) :
    Paging.Serves (fun after => assembleFlow activities events after limit)
      (flowRest activities events) limit := by
  refine ⟨fun c => ?_, fun c hc => ?_, fun c c' hc => ?_⟩
  · rw [assembleFlow_eq h]
    split_ifs with hmore
    · rfl
    · exact (take_of_length_le (Nat.le_of_not_lt fun hlt => hmore ⟨hlimit, hlt⟩)).symm
  · rw [assembleFlow_eq h] at hc
    split_ifs at hc with hmore
    · rw [getElem?_eq_getElem (by omega)] at hc
      cases hc
    · omega
  · rw [assembleFlow_eq h] at hc
    split_ifs at hc with hmore
    obtain ⟨x, hx, rfl⟩ := Option.map_eq_some_iff.mp hc
    have hlast : limit - 1 + 1 = limit := by omega
    refine ⟨fun hnil => by simp [hnil] at hmore, ?_⟩
    cases c with
    | none => rw [← hlast]; exact (ascending_sortedNodes h).filter_lt_getElem hx
    | some p => rw [← hlast]; exact (ascending_sortedNodes h).filter_lt_of_filter hx

end Pages

/-- **The pages of a flow.** If activities have distinct ids, events are told apart by collection,
entity and version, and no collection has a bar in its name, then the ids of the nodes are distinct.
Asking for page after page ends, no page is longer than the limit, and put together the pages are
all nodes, each of them once, in order, in whatever way the nodes are sorted. -/
theorem flow_pages (activities : List Activity) (events : List FlowEvent) (limit : Nat)
    (hlimit : 1 ≤ limit) (hact : (activities.map Activity.activityID).Nodup)
    (hev : (events.map FlowEvent.triple).Nodup)
    (hbar : ∀ ev ∈ events, '|' ∉ ev.collection.toList) :
    ((flowNodes activities events).map nodeID).Nodup ∧
      ∃ pages, (∀ fuel, (flowNodes activities events).length < fuel →
          Paging.walk (fun after => assembleFlow activities events after limit) fuel none =
            some pages) ∧
        (∀ page ∈ pages, page.length ≤ limit) ∧
        pages.flatten.Perm (flowNodes activities events) ∧ pages.flatten.Pairwise Before ∧
        ∀ l : List FlowNode, l.Perm (flowNodes activities events) →
          l.Pairwise (fun a b => a.precedes b = true) → pages.flatten = l := by
  have hids := nodup_nodeID hact hev hbar
  obtain ⟨pages, hwalk, hflat, hlens⟩ := (serves_assembleFlow hids hlimit).exists_walk hlimit none
  have hperm : (sortedNodes activities events).Perm (flowNodes activities events) :=
    perm_insertionSort _ _
  refine ⟨hids, pages, fun fuel hfuel => hwalk fuel (hperm.length_eq ▸ hfuel), hlens, ?_, ?_,
    fun l hl hsorted => ?_⟩
  · rw [hflat]
    exact hperm
  · rw [hflat]
    exact (ascending_sortedNodes hids).imp before_iff.mpr
  · rw [hflat, eq_sortedNodes hids hl hsorted]
    rfl

/-- Two events of one instant, whose entities have bars in their names, and an activity of the same
instant, by pages of one node. -/
theorem flow_pages_bars :
    let events : List FlowEvent := [⟨"deals", { entityID := "a|1", version := 1, op := .create }⟩,
      ⟨"deals", { entityID := "a", version := 11, op := .update }⟩]
    let activities : List Activity := [{ activityID := "deals|a|1|1", flowID := "f" }]
    ((flowNodes activities events).map nodeID).Nodup ∧
      ∃ pages, (∀ fuel, (flowNodes activities events).length < fuel →
          Paging.walk (fun after => assembleFlow activities events after 1) fuel none =
            some pages) ∧
        (∀ page ∈ pages, page.length ≤ 1) ∧
        pages.flatten.Perm (flowNodes activities events) ∧ pages.flatten.Pairwise Before ∧
        ∀ l : List FlowNode, l.Perm (flowNodes activities events) →
          l.Pairwise (fun a b => a.precedes b = true) → pages.flatten = l :=
  flow_pages _ _ 1 le_rfl (by decide) (by decide) (by decide)

end Letopis
