import Letopis.Diff.Drift
import Letopis.Runs.Extend
import Letopis.Runs.Repeats
import Letopis.Service.Planned

/-!
# The current state and the replayed one

`State` and `Diff` writes on one entity, one after the other and without faults, in a collection
with configured array keys. A diff by key does not record the order of the elements, so the
history replays to the current state up to the order of keyed arrays only (`Db.Follows`). A later
write that addresses such an array by position can then edit one element in the current state and
another one in the replay (`position_hits_another`).

`Write.Ordered` says that a write does no such thing, and `replay_alike_current` that a run of such
writes keeps the two alike.
-/

namespace Letopis

open Interleaving SortedAssoc List

/-- How the diffs of a collection treat arrays. -/
def Db.options (db : Db) (c : String) : DiffOptions := { arrayKeys := (db c).config.arrayKeys }

/-- The history replays to the current state, up to the order of keyed arrays. -/
def Db.Follows (db : Db) (c e : String) : Prop :=
  ∃ rs d, reconstruct [] false (db.hist c e) = .ok (rs, d) ∧
    d = (lastState ((db c).current e)).2 ∧
    alike (db.options c) "" (.obj rs) (.obj (lastState ((db c).current e)).1) = true

/-- The current state has plain keys, and no key value with a dot. -/
def Db.Tidy (db : Db) (c e : String) : Prop :=
  (Json.obj (lastState ((db c).current e)).1).Regular ∧
    (db.options c).Dotless (.obj (lastState ((db c).current e)).1)

/-- The write does not make the order count that the history has dropped. A state leaves every
array with a configured key in its mode, or finds it in the same order; a change list addresses
positions only where the current state and the replay have the same order, and leads into no value
that it has put in. -/
inductive Write.Ordered (w : Write) (db : Db) : Prop where
  | state (hkind : w.kind = .state) (hop : w.cmd.op ≠ some .delete)
    (hsteady : ∀ rs d, reconstruct [] false (db.hist w.coll w.eid) = .ok (rs, d) →
      compared (steady (db.options w.coll)) (db.options w.coll) "" (.obj (workOf rs d))
        (.obj (baseState ((db w.coll).current w.eid)).1) (.obj w.cmd.state) = true)
  | diff (chs : List Change) (hkind : w.kind = .diff) (hchanges : w.cmd.changes = some chs)
    (hkeeps : KeepsOffList w.kind w.cmd ((db w.coll).current w.eid))
    (htouches : ∀ rs d, reconstruct [] false (db.hist w.coll w.eid) = .ok (rs, d) →
      touchesAll (db.options w.coll) (.obj (workOf rs d))
        (.obj (baseState ((db w.coll).current w.eid)).1) chs = true)

section Step

variable {w : Write} {db : Db} {opts : DiffOptions}

private theorem exists_obj_of_alike {path : String} {r : Json} {m : Fields}
    (h : alike opts path r (.obj m) = true) : ∃ rm, r = .obj rm := by
  cases r with
  | obj rm => exact ⟨rm, rfl⟩
  | null | bool | num | str | arr => simp [alike] at h

theorem Db.Follows.work {c e : String} (h : db.Follows c e) : ∃ rs d,
    reconstruct [] false (db.hist c e) = .ok (rs, d) ∧
      alike (db.options c) "" (.obj (workOf rs d))
        (.obj (baseState ((db c).current e)).1) = true := by
  obtain ⟨rs, d, hrec, hd, halike⟩ := h
  refine ⟨rs, d, hrec, ?_⟩
  rw [← workOf_lastState, hd, workOf, workOf]
  split_ifs
  · exact alike_refl _ _
  · exact halike

theorem Db.Tidy.base {c e : String} (h : db.Tidy c e) :
    (Json.obj (baseState ((db c).current e)).1).Regular ∧
      (db.options c).Dotless (.obj (baseState ((db c).current e)).1) := by
  rw [← workOf_lastState]
  refine ⟨regular_workOf h.1, ?_⟩
  rw [workOf]
  split_ifs
  · exact Json.every_obj_iff.mpr ⟨by simp [elemKey], fun p hp => absurd hp not_mem_nil⟩
  · exact h.2

/-- The replay of an event whose changes apply, with a result that is alike to an object. -/
theorem replayStep_alike {rs newState : Fields} {d : Bool} {ev : Event}
    (hop : ev.op ≠ .delete)
    (happly : ∃ r', apply (.obj (workOf rs d)) ev.changes = .ok r' ∧
      alike opts "" r' (.obj newState) = true) :
    ∃ rs', replayStep rs d ev = .ok (rs', false) ∧
      alike opts "" (.obj rs') (.obj newState) = true := by
  obtain ⟨r', hr', halike⟩ := happly
  obtain ⟨rm, rfl⟩ := exists_obj_of_alike halike
  exact ⟨rm, by rw [replayStep, if_neg hop, hr']; rfl, halike⟩

/-- The replay of the planned event gives what was planned, up to the order of keyed arrays. -/
theorem Write.Ordered.replayStep (hord : w.Ordered db) (hmild : (db.options w.coll).MildKeys)
    (htidy : db.Tidy w.coll w.eid) {rs : Fields} {d : Bool}
    (hrec : reconstruct [] false (db.hist w.coll w.eid) = .ok (rs, d))
    (hwork : alike (db.options w.coll) "" (.obj (workOf rs d))
      (.obj (baseState ((db w.coll).current w.eid)).1) = true)
    {planned ev : Event} {newState : Fields} {deleted : Bool}
    (hplan : planEvent w.now.received (db w.coll).config w.kind w.cmd
      ((db w.coll).current w.eid) = .ok (.write planned newState deleted))
    (hev : ev.op = planned.op ∧ ev.changes = planned.changes)
    (hnew : (Json.obj newState).Regular ∧ (db.options w.coll).Dotless (.obj newState)) :
    ∃ rs', Letopis.replayStep rs d ev = .ok (rs', deleted) ∧
      alike (db.options w.coll) "" (.obj rs') (.obj newState) = true := by
  obtain ⟨hreg, hdot⟩ := htidy.base
  cases hord with
  | state hkind hop hsteady =>
    rw [hkind] at hplan
    obtain ⟨rfl, rfl, hpop, hchanges⟩ := planEvent_state hplan
    refine replayStep_alike (by rw [hev.1, hpop]; exact resolveOp_ne_delete hop) ?_
    rw [hev.2, hchanges]
    exact alike_apply_diff hmild hreg hnew.1 hdot hnew.2 hwork (hsteady rs d hrec)
  | diff chs hkind hchanges hkeeps htouches =>
    rw [hkind] at hplan
    obtain ⟨-, hdiff⟩ := planEvent_diff hplan
    cases hdiff with
    | delete hdel => exact ⟨_, replayStep_delete (hev.1.trans hdel), hwork⟩
    | create _ hnone => rw [hchanges] at hnone; cases hnone
    | apply hne hsome hpch happly =>
      obtain rfl := Option.some.inj (hchanges.symm.trans hsome)
      refine replayStep_alike (by rw [hev.1]; exact hne) ?_
      rw [hev.2, hpch]
      exact alike_apply hwork (htouches rs d hrec) happly

end Step

/-! ### Runs -/

/-- **One write** keeps the history and the current state alike. -/
theorem Db.Follows.exec {srv : Server} {w : Write} {db : Db} (h : db.Follows w.coll w.eid)
    (hmild : (db.options w.coll).MildKeys) (hord : w.Ordered db)
    (htidy : db.Tidy w.coll w.eid)
    (htidy' : (w.prog.exec (handle srv) (fun _ _ => Fault.none) [] db).store.Tidy
      w.coll w.eid) :
    let db' := (w.prog.exec (handle srv) (fun _ _ => Fault.none) [] db).store
    db'.Follows w.coll w.eid ∧ db'.options w.coll = db.options w.coll := by
  intro db'
  obtain heq | ⟨ev, newState, deleted, hdec, hext, hcur⟩ := exec_unchanged_or_extends srv w db
  · rw [show db' = db from heq]
    exact ⟨h, rfl⟩
  · have hopts : db'.options w.coll = db.options w.coll := by
      rw [Db.options, Db.options, hext.config]
    refine ⟨?_, hopts⟩
    obtain ⟨planned, hplan, ⟨m, i, rfl⟩, -⟩ := Write.decision_event hdec
    set ev : Event := { planned with metadata := m, integrity := i }
    have hkept : (w.next db ev).op = planned.op ∧ (w.next db ev).changes = planned.changes :=
      ⟨rfl, rfl⟩
    obtain ⟨rs, d, hrec, hwork⟩ := h.work
    have hnew : (Json.obj newState).Regular ∧ (db.options w.coll).Dotless (.obj newState) := by
      rw [Db.Tidy, hcur, hopts] at htidy'
      exact htidy'
    obtain ⟨rs', hstep, halike⟩ := hord.replayStep hmild htidy hrec hwork hplan hkept hnew
    refine ⟨rs', deleted, ?_, ?_, ?_⟩
    · rw [hext.hist, reconstruct_concat hrec, hstep]
    · rw [hcur]
      rfl
    · rw [hcur, hopts]
      exact halike

/-- **The replay and the current state stay alike.** `State` and `Diff` writes on one entity, one
after the other and without faults, whatever array keys are configured. If no write makes the
order count that the history has dropped, then after every one of them the history replays to the
current state, up to the order of keyed arrays, and what a write stores is what it has planned. -/
theorem replay_alike_current (srv : Server) (db : Db) {c e : String}
    (hmild : (db.options c).MildKeys) (hdb : db.Untouched c e) (ws : List Write)
    (hws : ∀ w ∈ ws, w.coll = c ∧ w.eid = e)
    (htidy : ∀ pre post, ws = pre ++ post → (afterWrites srv db pre).Tidy c e)
    (hord : ∀ pre w post, ws = pre ++ w :: post → w.Ordered (afterWrites srv db pre)) :
    (∀ pre post, ws = pre ++ post → (afterWrites srv db pre).Follows c e) ∧
      ∀ pre w post, ws = pre ++ w :: post →
        let cur := (afterWrites srv db pre c).current e
        ∀ planned newState deleted ev,
          planEvent w.now.received (afterWrites srv db pre c).config w.kind w.cmd cur =
            .ok (.write planned newState deleted) →
          Returned w.kind w.cmd cur planned ev → ev = planned := by
  have hrun : ∀ pre post, ws = pre ++ post → (afterWrites srv db pre).Follows c e ∧
      (afterWrites srv db pre).options c = db.options c := by
    intro pre
    induction pre using List.reverseRecOn with
    | nil =>
      refine fun _ _ => ⟨⟨[], false, ?_, ?_, ?_⟩, rfl⟩
      · rw [afterWrites, map_nil, Session.run, foldl_nil, hdb.hist, reconstruct_nil]
      · rw [afterWrites, map_nil, Session.run, foldl_nil, hdb.current, lastState]
      · rw [afterWrites, map_nil, Session.run, foldl_nil, hdb.current, lastState]
        exact alike_refl _ _
    | append_singleton pre w ih =>
      intro post hpost
      have hsplit : ws = pre ++ w :: post := by rw [hpost, append_assoc]; rfl
      obtain ⟨hfollows, hopts⟩ := ih _ hsplit
      obtain ⟨rfl, rfl⟩ := hws w (by rw [hsplit]; simp)
      have hafter := htidy (pre ++ [w]) post hpost
      rw [after_concat] at hafter ⊢
      obtain ⟨hfollows', hopts'⟩ := hfollows.exec (hopts ▸ hmild) (hord pre w post hsplit)
        (htidy pre _ hsplit) hafter
      exact ⟨hfollows', hopts'.trans hopts⟩
  refine ⟨fun pre post hpost => (hrun pre post hpost).1, ?_⟩
  intro pre w post hsplit cur planned newState deleted ev hplan hret
  obtain ⟨rfl, rfl⟩ := hws w (by rw [hsplit]; simp)
  have hoff : KeepsOffList w.kind w.cmd cur := by
    cases hord pre w post hsplit with
    | state hkind => exact fun hdiff => absurd (hkind.symm.trans hdiff) (by simp)
    | diff _ _ _ hkeeps _ => exact hkeeps
  exact (returned_iff (htidy pre _ hsplit).base.1.wf hoff hplan).mp hret

/-- A `Diff` write with a change list. -/
def Write.ofChanges (c e : String) (chs : List Change) : Write :=
  { Write.ofState c e [] with
    kind := .diff, cmd := { collection := c, entityID := e, changes := some chs } }

/-- The lines of an order are swapped while one of them is edited, and then a note is added: the
replay has the lines in their first order. -/
theorem replay_alike_current_note :
    let line (sku qty : String) := Json.obj [("qty", .str qty), ("sku", .str sku)]
    let db : Db := fun _ => { config := { arrayKeys := [("lines", "sku")] } }
    let ws := [Write.ofState "orders" "7" [("lines", .arr [line "A" "1", line "B" "1"])],
      .ofState "orders" "7" [("lines", .arr [line "B" "2", line "A" "1"])],
      .ofChanges "orders" "7" [⟨"note", .add, .null, .str "rush"⟩]]
    let stored := afterWrites .mongo db ws
    reconstruct [] false (stored.hist "orders" "7") =
        .ok ([("lines", .arr [line "A" "1", line "B" "2"]), ("note", .str "rush")], false) ∧
      stored.Follows "orders" "7" := by
  intro line db ws stored
  refine ⟨by decide +kernel, ?_⟩
  have htidy : ∀ pre post, ws = pre ++ post → (afterWrites .mongo db pre).Tidy "orders" "7" := by
    intro pre post h
    rcases pre with _ | ⟨w₁, _ | ⟨w₂, _ | ⟨w₃, pre⟩⟩⟩ <;> simp [ws] at h
    · exact ⟨⟨by decide +kernel, by decide +kernel⟩, by decide +kernel⟩
    · obtain ⟨rfl, -⟩ := h
      exact ⟨⟨by decide +kernel, by decide +kernel⟩, by decide +kernel⟩
    · obtain ⟨rfl, rfl, -⟩ := h
      exact ⟨⟨by decide +kernel, by decide +kernel⟩, by decide +kernel⟩
    · obtain ⟨rfl, rfl, rfl, rfl, -⟩ := h
      exact ⟨⟨by decide +kernel, by decide +kernel⟩, by decide +kernel⟩
  -- the replay is computed, and the checks are made on what it gives
  have hsteady : ∀ (w : Write) (db : Db) (rs : Fields), w.kind = .state → w.cmd.op = none →
      reconstruct [] false (db.hist w.coll w.eid) = .ok (rs, false) →
      compared (steady (db.options w.coll)) (db.options w.coll) "" (.obj rs)
        (.obj (baseState ((db w.coll).current w.eid)).1) (.obj w.cmd.state) = true →
      w.Ordered db := fun w db rs hkind hop hrec hcheck =>
    .state hkind (by simp [hop]) fun rs' d h => by cases hrec.symm.trans h; exact hcheck
  have hord : ∀ pre w post, ws = pre ++ w :: post → w.Ordered (afterWrites .mongo db pre) := by
    intro pre w post h
    rcases pre with _ | ⟨w₁, _ | ⟨w₂, _ | ⟨w₃, pre⟩⟩⟩ <;> simp [ws] at h
    · obtain ⟨rfl, -⟩ := h
      exact hsteady _ _ [] rfl rfl (by decide +kernel) (by decide +kernel)
    · obtain ⟨rfl, rfl, -⟩ := h
      exact hsteady _ _ [("lines", .arr [line "A" "1", line "B" "1"])] rfl rfl (by decide +kernel)
        (by decide +kernel)
    · obtain ⟨rfl, rfl, rfl, -⟩ := h
      have hrec : reconstruct [] false ((afterWrites .mongo db (ws.take 2)).hist "orders" "7") =
          .ok ([("lines", .arr [line "A" "1", line "B" "2"])], false) := by decide +kernel
      refine .diff _ rfl rfl (fun _ _ chs hchs => ?_) fun rs d h => ?_
      · cases hchs
        decide +kernel
      · cases hrec.symm.trans h
        decide +kernel
  have hws : ∀ w ∈ ws, w.coll = "orders" ∧ w.eid = "7" := by
    simp only [ws, forall_mem_cons]
    exact ⟨⟨rfl, rfl⟩, ⟨rfl, rfl⟩, ⟨rfl, rfl⟩, by simp⟩
  exact (replay_alike_current .mongo db (by decide +kernel) ⟨rfl, rfl⟩ ws hws htidy hord).1 ws []
    (by simp)

/-- The lines of an order are swapped while one of them is edited, and then the first line is
edited by its position: in the current state this is one line, in the replay the other. -/
theorem position_hits_another :
    let line (sku qty : String) := Json.obj [("qty", .str qty), ("sku", .str sku)]
    let db : Db := fun _ => { config := { arrayKeys := [("lines", "sku")] } }
    let ws := [Write.ofState "orders" "7" [("lines", .arr [line "A" "1", line "B" "1"])],
      .ofState "orders" "7" [("lines", .arr [line "B" "2", line "A" "1"])],
      .ofChanges "orders" "7" [⟨"lines.0.qty", .change, .str "2", .str "3"⟩]]
    let stored := afterWrites .mongo db ws
    (lastState ((stored "orders").current "7")).1 =
        [("lines", .arr [line "B" "3", line "A" "1"])] ∧
      reconstruct [] false (stored.hist "orders" "7") =
        .ok ([("lines", .arr [line "A" "3", line "B" "2"])], false) ∧
      ¬ stored.Follows "orders" "7" := by
  intro line db ws stored
  have hrec : reconstruct [] false (stored.hist "orders" "7") =
      .ok ([("lines", .arr [line "A" "3", line "B" "2"])], false) := by decide +kernel
  refine ⟨by decide +kernel, hrec, ?_⟩
  rintro ⟨rs, d, hrs, -, halike⟩
  cases hrec.symm.trans hrs
  revert halike
  decide +kernel

end Letopis
