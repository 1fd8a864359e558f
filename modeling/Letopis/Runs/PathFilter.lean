import Letopis.Diff.Touched
import Letopis.Runs.Extend
import Letopis.Service.Planned

/-!
# The history of a field

The history of an entity can be filtered by the path of a field. One would like to read off it every
event in which the field has changed, so that an event left out has the same value there before and
after it. What the filter compares, though, are the paths of the recorded changes, and a diff names
a value that is added, removed or replaced as a whole and no place below it. A delete records no
changes at all, and the state after a deletion is compared with the empty object, not with the one
on display.

`Write.Shows` tells which writes the filter gets right, and `path_filter_complete_iff` says that the
filter is complete for a run of `State` and `Delete` writes exactly if it gets right every write
that adds an event.
-/

namespace Letopis

open Interleaving SortedAssoc List

/-- The history of an entity, filtered by the path of a place. -/
def pathFilter (e : String) (p : List PathSeg) : EventFilter :=
  { entityID := e, path := walkPath "" p }

/-- Every version is replayed, and an event that the filter leaves out has the same value at the
place before and after it. -/
def Complete (f : EventFilter) (p : List PathSeg) (hist : List Event) : Prop :=
  ∀ k ev, hist[k]? = some ev → ∃ s d t d', Reports hist k s d ∧ Reports hist (k + 1) t d' ∧
    (f.selects ev = false → (Json.obj s).resolve p = (Json.obj t).resolve p)

private theorem complete_nil (f : EventFilter) (p : List PathSeg) : Complete f p [] := by
  intro k ev hev
  rw [getElem?_nil] at hev
  cases hev

private theorem complete_concat_iff {f : EventFilter} {p : List PathSeg} {hist : List Event}
    {x : Event} {s t : Fields} {d d' : Bool} (hs : Reports hist hist.length s d)
    (ht : Reports (hist ++ [x]) (hist.length + 1) t d') :
    Complete f p (hist ++ [x]) ↔ Complete f p hist ∧
      (f.selects x = false → (Json.obj s).resolve p = (Json.obj t).resolve p) := by
  have hgrows : hist <+: hist ++ [x] := prefix_append hist [x]
  constructor
  · intro h
    refine ⟨fun k ev hev => ?_, ?_⟩
    · have hlt : k < hist.length := (List.getElem?_eq_some_iff.mp hev).1
      obtain ⟨s, d, t, d', hs', ht', hkeep⟩ := h k ev (by rw [getElem?_append_left hlt, hev])
      refine ⟨s, d, t, d', ⟨hlt.le, ?_⟩, ⟨hlt, ?_⟩, hkeep⟩
      · rw [← hs'.replay, take_append_of_le_length hlt.le]
      · rw [← ht'.replay, take_append_of_le_length hlt]
    · obtain ⟨s', _, t', _, hs', ht', hkeep⟩ := h hist.length x getElem?_concat_length
      obtain ⟨rfl, -⟩ := hs'.unique (hs.mono hgrows)
      obtain ⟨rfl, -⟩ := ht'.unique ht
      exact hkeep
  · rintro ⟨h, hlast⟩ k ev hev
    rcases lt_or_ge k hist.length with hlt | hge
    · rw [getElem?_append_left hlt] at hev
      obtain ⟨s, d, t, d', hs', ht', hkeep⟩ := h k ev hev
      exact ⟨s, d, t, d', hs'.mono hgrows, ht'.mono hgrows, hkeep⟩
    · have hk : k = hist.length := by
        have hlt := (List.getElem?_eq_some_iff.mp hev).1
        rw [length_append, length_singleton] at hlt
        omega
      rw [hk, getElem?_concat_length] at hev
      cases hev
      exact ⟨s, d, t, d', hk ▸ hs.mono hgrows, hk ▸ ht, hlast⟩

/-! ### The current state -/

namespace Db.Tracked

variable {db : Db} {c e : String}

theorem reports (h : db.Tracked c e) : Reports (db.hist c e) (db.hist c e).length
    (lastState ((db c).current e)).1 (lastState ((db c).current e)).2 := by
  have hfresh := h.fresh
  rw [h.sequenced.top_eq, Db.curVersion] at hfresh
  cases hcur : (db c).current e with
  | none =>
    rw [hcur] at hfresh
    have hnil : db.hist c e = [] := length_eq_zero_iff.mp hfresh.symm
    rw [hnil]
    exact ⟨le_rfl, rfl⟩
  | some st =>
    rw [hcur, baseState_some] at hfresh
    rw [← show st.version = (db.hist c e).length from hfresh]
    exact h.replays.current st hcur

theorem regular (h : db.Tracked c e) :
    (Json.obj (lastState ((db c).current e)).1).Regular := by
  obtain ⟨s, d, hs, hreg⟩ := h.replays.prefixes _ le_rfl
  obtain ⟨rfl, -⟩ := hs.unique h.reports
  exact hreg

end Db.Tracked

/-! ### Writes -/

/-- The filter gets the write right. A `Delete` has the entity live, or with no value at the place.
A `State` leaves the value at the place, or both states have the same containers on the way there;
after a deletion, the filter selects one of the entries submitted. -/
def Write.Shows (w : Write) (p : List PathSeg) (cur : Option CurrentState) : Prop :=
  let before := Json.obj (lastState cur).1
  if w.kind = .delete then (lastState cur).2 = true → before.resolve p = none
  else before.resolve p = (Json.obj w.cmd.state).resolve p ∨
    if (lastState cur).2 = true then
      w.cmd.state.any (fun kv => EventFilter.pathMatches (walkPath "" p).toList kv.1.toList) = true
    else SameContainers before (.obj w.cmd.state) p

section Step

variable {db : Db} {w : Write} {ev : Event} {newState : Fields} {deleted : Bool}
  {p : List PathSeg}

private theorem selects_pathFilter (hp : ∀ s ∈ p, s.IsField) (hne : p ≠ []) {x : Event} {e : String}
    (he : x.entityID = e) : (pathFilter e p).selects x =
      x.changes.any fun ch => EventFilter.pathMatches (walkPath "" p).toList ch.path.toList := by
  have hpath : walkPath "" p ≠ "" := walkPath_ne_empty hp hne
  simp [EventFilter.selects, pathFilter, he, hpath, Time.isZero, Time.zero]

private theorem planEvent_delete_changes {received : Time} {cfg : CollectionConfig}
    {cmd : IngestCommand}
    {cur : Option CurrentState} {ev : Event} {newState : Fields} {deleted : Bool}
    (h : planEvent received cfg .delete cmd cur = .ok (.write ev newState deleted)) :
    ev.changes = [] := by
  cases h
  rfl

private theorem resolve_nil_obj (hne : p ≠ []) : (Json.obj []).resolve p = none := by
  obtain ⟨s, rest, rfl⟩ := exists_cons_of_ne_nil hne
  rw [Json.resolve_cons]
  cases s <;> rfl

/-- **One write.** The filter leaves out the event with the value at the place changed, or gets the
write right. -/
theorem Write.shows_iff (htracked : db.Tracked w.coll w.eid) (hsends : Sends w.kind w.cmd)
    (hdec : w.decision db = .ok (some (ev, newState, deleted)))
    (hp : ∀ s ∈ p, s.IsField) (hne : p ≠ []) :
    ((pathFilter w.eid p).selects (w.next db ev) = false →
      (Json.obj (lastState ((db w.coll).current w.eid)).1).resolve p =
        (Json.obj newState).resolve p) ↔ w.Shows p ((db w.coll).current w.eid) := by
  have hreg := htracked.regular
  have hbase := workOf_lastState ((db w.coll).current w.eid)
  obtain ⟨planned, hplan, ⟨m, i, rfl⟩, he, -⟩ := decision_event hdec
  set ev : Event := { planned with metadata := m, integrity := i }
  have hchanges : (w.next db ev).changes = planned.changes := rfl
  rw [selects_pathFilter hp hne (show (w.next db ev).entityID = w.eid from he), hchanges, Shows]
  generalize lastState ((db w.coll).current w.eid) = last at hreg hbase ⊢
  obtain ⟨state, flag⟩ := last
  dsimp only at hreg hbase ⊢
  generalize hkind : w.kind = kind at hsends hplan
  cases hsends with
  | state hop hregular =>
    obtain ⟨rfl, -, -, hdiff⟩ := planEvent_state hplan
    rw [hdiff, htracked.keys, ← hbase, if_neg (by simp)]
    cases flag with
    | false => exact EventFilter.diff_shows_iff rfl hreg hregular hp hne
    | true =>
      rw [workOf, if_pos rfl, if_pos rfl,
        EventFilter.any_diff_nil (Json.regular_obj_iff.mp hregular).1]
      generalize List.any _ _ = shown
      cases shown <;> simp
  | delete =>
    obtain ⟨rfl, -, -⟩ := planEvent_delete hplan
    rw [planEvent_delete_changes hplan, ← hbase, if_pos rfl, workOf]
    cases flag with
    | false => simp
    | true =>
      rw [if_pos rfl, resolve_nil_obj hne]
      simp

end Step

private theorem forall_split_concat {α : Type*} {P : List α → α → Prop} {l : List α} {x : α} :
    (∀ pre a post, l ++ [x] = pre ++ a :: post → P pre a) ↔
      (∀ pre a post, l = pre ++ a :: post → P pre a) ∧ P l x := by
  constructor
  · intro h
    refine ⟨fun pre a post hl => h pre a (post ++ [x]) (by rw [hl, append_assoc]; rfl),
      h l x [] rfl⟩
  · rintro ⟨h, hx⟩ pre a post hl
    obtain rfl | ⟨post, b, rfl⟩ := post.eq_nil_or_concat'
    · obtain ⟨rfl, ha⟩ := append_inj' hl rfl
      cases ha
      exact hx
    · rw [← cons_append, ← append_assoc] at hl
      exact h pre a post (append_inj' hl rfl).1

/-- **When the history of a field is complete.** For every run of `State` and `Delete` writes on one
entity of a collection without array keys, one after the other and without faults: the events that
the filter on the path of a field leaves out have the same value there before and after them,
exactly if the filter gets right every write that adds an event. -/
theorem path_filter_complete_iff (srv : Server) (db : Db) {c e : String}
    (hkeys : (db c).config.arrayKeys = []) (hdb : db.Untouched c e) (ws : List Write)
    (hws : ∀ w ∈ ws, w.coll = c ∧ w.eid = e ∧ Sends w.kind w.cmd) {p : List PathSeg}
    (hp : ∀ s ∈ p, s.IsField) (hne : p ≠ []) :
    Complete (pathFilter e p) p ((afterWrites srv db ws).hist c e) ↔
      ∀ pre w post, ws = pre ++ w :: post →
        (afterWrites srv db (pre ++ [w])).hist c e = (afterWrites srv db pre).hist c e ∨
          w.Shows p ((afterWrites srv db pre c).current e) := by
  induction ws using List.reverseRecOn with
  | nil =>
    refine iff_of_true ?_ fun pre w post h => ?_
    · rw [show afterWrites srv db [] = db from rfl, hdb.hist]
      exact complete_nil _ _
    · simp at h
  | append_singleton ws w ih =>
    obtain ⟨hws, hw⟩ := forall_mem_append.mp hws
    obtain ⟨rfl, rfl, hsends⟩ := forall_mem_singleton.mp hw
    rw [forall_split_concat, ← ih hws]
    have htracked : (afterWrites srv db ws).Tracked w.coll w.eid :=
      (Db.Tracked.start hkeys hdb).after hws
    rw [after_concat]
    generalize afterWrites srv db ws = db₁ at htracked ⊢
    obtain heq | ⟨ev, newState, deleted, hdec, hext, hcur⟩ := exec_unchanged_or_extends srv w db₁
    · rw [heq]
      simp
    · have hnew := (hext.replays hdec hsends htracked.keys htracked.sequenced htracked.replays
        htracked.fresh).2
      have hversion : (w.next db₁ ev).version = (db₁.hist w.coll w.eid).length + 1 := by
        rw [← htracked.sequenced.top_eq]
        rfl
      rw [hext.hist, hversion] at hnew
      rw [hext.hist, complete_concat_iff htracked.reports hnew,
        Write.shows_iff htracked hsends hdec hp hne]
      simp

/-- A field is changed, then the entity is deleted. -/
theorem path_filter_complete_iff_flat :
    let state (won : Bool) : Write := .ofState "deals" "42" [("won", .bool won)]
    let ws := [state false, state true, { state true with kind := .delete }]
    let hist := (afterWrites .mongo (fun _ => {}) ws).hist "deals" "42"
    Complete (pathFilter "42" [.key "won"]) [.key "won"] hist ∧
      (hist.filter fun ev => (pathFilter "42" [.key "won"]).selects ev).map Event.version =
        [1, 2] := by
  intro state ws hist
  have hp : ∀ s ∈ [PathSeg.key "won"], s.IsField := by
    rw [forall_mem_singleton]
    exact ⟨by decide, by decide, by decide, by decide⟩
  have hws : ∀ w ∈ ws, w.coll = "deals" ∧ w.eid = "42" ∧ Sends w.kind w.cmd := by
    have hregular : ∀ won, (Json.obj [("won", .bool won)]).Regular := fun won => by
      cases won <;> exact ⟨by decide, by decide⟩
    simp only [ws, forall_mem_cons]
    exact ⟨⟨rfl, rfl, .state (by decide) (hregular false)⟩,
      ⟨rfl, rfl, .state (by decide) (hregular true)⟩, ⟨rfl, rfl, .delete⟩, by simp⟩
  refine ⟨(path_filter_complete_iff .mongo (fun _ => {}) rfl ⟨rfl, rfl⟩ ws hws hp (by simp)).mpr ?_,
    by decide +kernel⟩
  have hsame : ∀ am bm, SameContainers (.obj am) (.obj bm) [.key "won"] := fun am bm =>
    sameContainers_cons_iff.mpr ⟨trivial, .inl rfl⟩
  have hshows : ∀ won cur, (lastState cur).2 = false → (state won).Shows [.key "won"] cur := by
    intro won cur hlive
    have hkind : (state won).kind ≠ .delete := fun h => by cases h
    rw [Write.Shows, if_neg hkind, hlive]
    exact .inr (hsame _ _)
  change ∀ pre w post, [] ++ [state false] ++ [state true] ++ [_] = pre ++ w :: post → _
  rw [forall_split_concat, forall_split_concat, forall_split_concat]
  refine ⟨⟨⟨by simp, .inr ?_⟩, .inr ?_⟩, .inr ?_⟩
  · exact hshows _ _ (by decide +kernel)
  · exact hshows _ _ (by decide +kernel)
  · rw [Write.Shows, if_pos rfl]
    exact fun h => absurd h (by decide +kernel)

/-- The value at the place in the replay of the first events. -/
def replayedValue (hist : List Event) (p : List PathSeg) (k : Nat) : Option Json :=
  (reconstruct [] false (hist.take k)).toOption.bind fun sd => (Json.obj sd.1).resolve p

theorem Reports.replayedValue_eq {hist : List Event} {k : Nat} {s : Fields} {d : Bool}
    (h : Reports hist k s d) (p : List PathSeg) :
    replayedValue hist p k = (Json.obj s).resolve p := by
  rw [replayedValue, h.replay]
  rfl

/-- An event that the filter leaves out, with another value before it than after it. -/
theorem not_complete {f : EventFilter} {p : List PathSeg} {hist : List Event} (k : Nat)
    (hskip : hist[k]?.map f.selects = some false)
    (hdiffer : replayedValue hist p k ≠ replayedValue hist p (k + 1)) : ¬ Complete f p hist := by
  intro h
  obtain ⟨ev, hev, hskip⟩ := Option.map_eq_some_iff.mp hskip
  obtain ⟨s, d, t, d', hs, ht, hkeep⟩ := h k ev hev
  rw [hs.replayedValue_eq, ht.replayedValue_eq] at hdiffer
  exact hdiffer (hkeep hskip)

/-- The filtered history does not show that a field appears within a new object, that it is gone
when the object is replaced, that a second delete clears it, and that it is gone when the entity is
created anew. Nor is it complete if a state was sent as a delete. -/
theorem path_filter_hides_changes :
    let state (s : Fields) : Write := .ofState "deals" "42" s
    let delete : Write := { state [] with kind := .delete }
    let sentAsDelete (s : Fields) : Write :=
      ⟨{}, ⟨⟨1⟩, ⟨1⟩⟩, .state, { collection := "deals", entityID := "42", op := some .delete,
                                 state := s }⟩
    let yes := Json.bool true
    let hist (ws : List Write) := (afterWrites .mongo (fun _ => {}) ws).hist "deals" "42"
    let shown (hist : List Event) (p : List PathSeg) :=
      (hist.filter fun ev => (pathFilter "42" p).selects ev).map Event.version
    let values (hist : List Event) (p : List PathSeg) :=
      (List.range (hist.length + 1)).map (replayedValue hist p)
    let replaced := hist [state [("a", .obj [("b", yes)])], state [("a", yes)]]
    let cleared := hist [state [("a", yes)], delete, delete]
    let renewed := hist [state [("a", yes)], delete, state [("b", yes)]]
    let confused := hist [state [("a", yes)], sentAsDelete [("a", yes), ("b", yes)],
      state [("a", yes), ("b", yes), ("c", yes)]]
    let ab : List PathSeg := [.key "a", .key "b"]
    let a : List PathSeg := [.key "a"]
    (shown replaced ab = [] ∧ values replaced ab = [none, some yes, none] ∧
      ¬ Complete (pathFilter "42" ab) ab replaced) ∧
    (shown cleared a = [1] ∧ values cleared a = [none, some yes, some yes, none] ∧
      ¬ Complete (pathFilter "42" a) a cleared) ∧
    (shown renewed a = [1] ∧ values renewed a = [none, some yes, some yes, none] ∧
      ¬ Complete (pathFilter "42" a) a renewed) ∧
    (shown confused a = [1] ∧ values confused a = [none, some yes, some yes, none] ∧
      ¬ Complete (pathFilter "42" a) a confused) := by
  intro state delete sentAsDelete yes hist shown values replaced cleared renewed confused ab a
  refine ⟨⟨?_, ?_, not_complete 0 ?_ ?_⟩, ⟨?_, ?_, not_complete 2 ?_ ?_⟩,
    ⟨?_, ?_, not_complete 2 ?_ ?_⟩, ?_, ?_, not_complete 2 ?_ ?_⟩ <;> decide +kernel

end Letopis
