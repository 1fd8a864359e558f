import Letopis.Diff.Handed
import Letopis.Service.Replays

/-!
# The planned event and its replay

What a `Diff` command plans (`PlannedDiff`), and the event as `planEvent` returns it: the client's
change list has been through `Apply` by then (`Returned`). The event of a create with a full state
records the entries of the state as additions, so its replay puts them over what is there
(`apply_diff_empty`).
-/

namespace Letopis

open SortedAssoc

/-! ### What is planned -/

section Planned

variable {received : Time} {cfg : CollectionConfig} {kind : Kind} {cmd : IngestCommand}
  {cur : Option CurrentState} {planned ev : Event} {newState : Fields} {deleted : Bool}

/-- What a `Diff` command can plan. -/
inductive PlannedDiff (cfg : CollectionConfig) (cmd : IngestCommand) (cur : Option CurrentState)
    (ev : Event) : Fields → Bool → Prop where
  | delete (hop : ev.op = .delete) : PlannedDiff cfg cmd cur ev (baseState cur).1 true
  /-- A create without a change list takes the state. -/
  | create (hop : ev.op = .create) (hnone : cmd.changes = none)
    (hchanges : ev.changes = diff (.obj []) (.obj cmd.state) { arrayKeys := cfg.arrayKeys }) :
    PlannedDiff cfg cmd cur ev cmd.state false
  | apply {chs newState} (hop : ev.op ≠ .delete) (hsome : cmd.changes = some chs)
    (hchanges : ev.changes = chs)
    (happly : apply (.obj (baseState cur).1) chs = .ok (.obj newState)) :
    PlannedDiff cfg cmd cur ev newState false

/-- What a diff plans. -/
theorem planEvent_diff
    (h : planEvent received cfg .diff cmd cur = .ok (.write ev newState deleted)) :
    ev.op = resolveOp cmd.op cur cfg ∧ PlannedDiff cfg cmd cur ev newState deleted := by
  simp only [planEvent] at h
  split_ifs at h with hdel hcreate
  · cases h
    exact ⟨rfl, .delete hdel⟩
  · dsimp only at h
    split_ifs at h
    · cases h
    · cases h
      exact ⟨rfl, .create hcreate.1 hcreate.2 rfl⟩
  · cases happly : apply (.obj (baseState cur).1) (cmd.changes.getD []) with
    | error e => simp [happly] at h
    | ok j =>
      cases j with
      | obj m =>
        simp only [happly] at h
        split_ifs at h with hnil
        · cases h
        · cases h
          cases hchanges : cmd.changes with
          | none => simp [hchanges] at hnil
          | some chs =>
            rw [hchanges] at happly
            exact ⟨rfl, .apply hdel hchanges (by simp [buildEvent]) happly⟩
      | _ => simp [happly] at h

/-- The event as `planEvent` returns it. It holds the client's change list if that has been
applied, and `Apply` works on the values of the list in place. -/
def Returned (kind : Kind) (cmd : IngestCommand) (cur : Option CurrentState)
    (planned ev : Event) : Prop :=
  match kind, cmd.changes with
  | .diff, some chs =>
    if planned.op = .delete then ev = planned
    else ∃ chs', Mutable.Handed (.obj (baseState cur).1) chs chs' ∧
      ev = { planned with changes := chs' }
  | _, _ => ev = planned

/-- The client's change list, if there is one that is applied, leads into no value that it has put
in. -/
def KeepsOffList (kind : Kind) (cmd : IngestCommand) (cur : Option CurrentState) : Prop :=
  kind = .diff → cmd.op ≠ some .delete → ∀ chs, cmd.changes = some chs →
    Mutable.KeepsOff (.obj (baseState cur).1) chs

/-- Where no list leads into a value it has put in, the event is returned as planned. -/
theorem returned_iff (hcur : (Json.obj (baseState cur).1).WF) (hoff : KeepsOffList kind cmd cur)
    (hplan : planEvent received cfg kind cmd cur = .ok (.write planned newState deleted)) :
    Returned kind cmd cur planned ev ↔ ev = planned := by
  unfold Returned
  split
  · rename_i chs hsome
    obtain ⟨hop, hdiff⟩ := planEvent_diff hplan
    split_ifs with hdel
    · rfl
    · cases hdiff with
      | delete h => exact absurd h hdel
      | create _ hnone => simp [hsome] at hnone
      | apply _ hsome' hchanges _ =>
        obtain rfl : chs = _ := by simpa [hsome] using hsome'
        have hne : cmd.op ≠ some .delete := fun h => hdel (by simp [hop, h, resolveOp])
        simp only [Mutable.handed_iff hcur (hoff rfl hne chs hsome), exists_eq_left]
        rw [← hchanges]
  · rfl

end Planned

/-! ### What a replay goes on from -/

/-- The state and the flag that a replay of one more event starts from. -/
def lastState : Option CurrentState → Fields × Bool
  | none => ([], false)
  | some st => (st.state, st.deleted)

theorem workOf_lastState (cur : Option CurrentState) :
    workOf (lastState cur).1 (lastState cur).2 = (baseState cur).1 := by
  cases cur with
  | none => rfl
  | some st => rw [baseState_some]; rfl

/-! ### Adding entries -/

/-- The state has every key of the base. -/
def Covers (state base : Fields) : Prop := ∀ p ∈ base, (state.lookup p.1).isSome = true

instance (state base : Fields) : Decidable (Covers state base) :=
  inferInstanceAs (Decidable (∀ p ∈ base, _))

theorem overlay_eq_iff {base entries : Fields} (hb : Sorted base) (hs : Sorted entries) :
    overlay base entries = entries ↔ Covers entries base := by
  constructor
  · intro heq p hp
    rw [← heq, lookup_overlay base hs.nodup_keys, lookup_of_mem hb hp]
    cases entries.lookup p.1 <;> rfl
  · intro hcov
    refine ext_lookup (sorted_overlay hb entries) hs fun k => ?_
    rw [lookup_overlay base hs.nodup_keys]
    cases hbase : base.lookup k with
    | none => simp
    | some v =>
      obtain ⟨w, hw⟩ := Option.isSome_iff_exists.mp (hcov (k, v) (mem_of_lookup hbase))
      rw [hw]
      rfl

private theorem apply_adds (base : Fields) {entries : Fields}
    (hkeys : ∀ p ∈ entries, PlainKey p.1) :
    apply (.obj base) (entries.map fun p => .addAt (childPath "" p.1) p.2) =
      .ok (.obj (overlay base entries)) := by
  induction entries generalizing base with
  | nil => rfl
  | cons p entries ih =>
    obtain ⟨hp, hkeys⟩ := List.forall_mem_cons.mp hkeys
    have hroot : parsePath "" = .ok [] := rfl
    have hparse : parsePath (childPath "" p.1) = .ok [.key p.1] :=
      parsePath_childPath_key hroot hp
    have hone : applyOneChange (.obj base) (.addAt (childPath "" p.1) p.2) =
        .ok (.obj (SortedAssoc.insert p.1 p.2 base)) := by
      simp only [applyOneChange, Change.addAt, hparse, applyAt, applyStep, List.isEmpty_nil,
        if_true]
    rw [List.map_cons, apply, hone]
    exact ih _ hkeys

/-- The difference from the empty object, applied to another one, puts the entries over it. -/
theorem apply_diff_empty (base : Fields) {state : Fields} {opts : DiffOptions}
    (hs : (Json.obj state).Regular) :
    apply (.obj base) (diff (.obj []) (.obj state) opts) = .ok (.obj (overlay base state)) := by
  rw [diff, diffValue]
  split_ifs with heq
  · cases heq
    rfl
  · rw [diffMap]
    exact apply_adds base fun p hp => ((Json.regular_obj_iff.mp hs).2 p hp).1

end Letopis
