import Letopis.Diff.RoundTrip
import Letopis.Domain.Event

/-!
# Replaying a history

`reconstruct` replays a list of events onto a base state. It keeps two values: the one the
next diff applies against and the one reported for the version reached; they part at a
delete, which reports the value before it and resets the other to the empty object.

The two are never independent. After any replay the working value is the reported one, or
the empty object when the entity is deleted (`workOf`), so a replay can be cut anywhere and
continued from what was reported (`reconstruct_append`). That is what makes a snapshot as
good as the whole history before it.
-/

namespace Letopis

open List

/-- A snapshot is due at every positive multiple of a positive interval. -/
def shouldSnapshot (version : Nat) (interval : Int) : Bool :=
  if interval ≤ 0 ∨ version = 0 then false else (version : Int) % interval = 0

/-- The object a replayed value is; anything else counts as an empty one. -/
def Json.asFields : Json → Fields
  | .obj m => m
  | _ => []

/-- The loop of `Reconstruct`: `work` is what the next diff applies against, `report` what is
returned for the version reached. -/
def replay (work report : Fields) (deleted : Bool) :
    List Event → Except DiffErr (Fields × Bool)
  | [] => .ok (report, deleted)
  | ev :: events =>
    if ev.op = .delete then replay [] work true events
    else
      match apply (.obj work) ev.changes with
      | .error e => .error e
      | .ok applied => replay applied.asFields applied.asFields false events

/-- What the next diff of an entity applies against: nothing is left of a deleted one. -/
def workOf (state : Fields) (deleted : Bool) : Fields := if deleted then [] else state

/-- Replay an ordered tail of events onto a base state. -/
def reconstruct (base : Fields) (baseDeleted : Bool) (events : List Event) :
    Except DiffErr (Fields × Bool) :=
  replay (workOf base baseDeleted) base baseDeleted events

/-! ### Composition -/

/-- One event of a replay: the state and flag it leaves. -/
def replayStep (state : Fields) (deleted : Bool) (ev : Event) :
    Except DiffErr (Fields × Bool) :=
  if ev.op = .delete then .ok (workOf state deleted, true)
  else (apply (.obj (workOf state deleted)) ev.changes).map fun j => (j.asFields, false)

@[simp] theorem reconstruct_nil (base : Fields) (deleted : Bool) :
    reconstruct base deleted [] = .ok (base, deleted) := rfl

private theorem reconstruct_cons (base : Fields) (deleted : Bool) (ev : Event)
    (events : List Event) : reconstruct base deleted (ev :: events) =
      replayStep base deleted ev >>= fun sd => reconstruct sd.1 sd.2 events := by
  unfold reconstruct replayStep
  rw [replay]
  split_ifs with hop
  · rfl
  · cases apply (.obj (workOf base deleted)) ev.changes with
    | error e => rfl
    | ok j => rfl

/-- **Replays compose.** Replaying a history is replaying its first part and then the rest from
what was reported, errors included. -/
theorem reconstruct_append (base : Fields) (deleted : Bool) (e₁ e₂ : List Event) :
    reconstruct base deleted (e₁ ++ e₂) =
      reconstruct base deleted e₁ >>= fun sd => reconstruct sd.1 sd.2 e₂ := by
  induction e₁ generalizing base deleted with
  | nil => rfl
  | cons ev e₁ ih =>
    rw [cons_append, reconstruct_cons, reconstruct_cons]
    cases replayStep base deleted ev with
    | error e => rfl
    | ok sd => exact ih sd.1 sd.2

/-- **A replay can be cut anywhere.** If the first part of a list of events replays, the rest
replays from what was reported as it does within the whole list, with the same state and flag or
the same error; if the first part fails, the whole list fails with its error. So a snapshot of any
version stands for the history up to it. -/
theorem reconstruct_split (base : Fields) (deleted : Bool) (e₁ e₂ : List Event) :
    (∀ s d, reconstruct base deleted e₁ = .ok (s, d) →
      reconstruct s d e₂ = reconstruct base deleted (e₁ ++ e₂)) ∧
    (∀ err, reconstruct base deleted e₁ = .error err →
      reconstruct base deleted (e₁ ++ e₂) = .error err) ∧
    ∀ (hist : List Event) (v w : Nat), v ≤ w → ∀ s d,
      reconstruct base deleted (hist.take v) = .ok (s, d) →
      reconstruct s d ((hist.take w).drop v) = reconstruct base deleted (hist.take w) := by
  have hcut : ∀ e₁ e₂ s d, reconstruct base deleted e₁ = .ok (s, d) →
      reconstruct s d e₂ = reconstruct base deleted (e₁ ++ e₂) := by
    intro e₁ e₂ s d h
    rw [reconstruct_append, h]
    rfl
  refine ⟨hcut e₁ e₂, fun err h => ?_, fun hist v w hvw s d h => ?_⟩
  · rw [reconstruct_append, h]
    rfl
  · have hsplit : hist.take v ++ (hist.take w).drop v = hist.take w := by
      have htake : hist.take v = (hist.take w).take v := by
        rw [take_take, Nat.min_eq_left hvw]
      rw [htake, take_append_drop]
    rw [hcut _ _ s d h, hsplit]

/-- An entity is created, deleted twice and created again; the replay is cut after the second
delete, which reports the empty object. -/
theorem reconstruct_split_deletes :
    let create (v : Bool) : Event :=
      { entityID := "42", op := .create, changes := [.addAt "won" (.bool v)] }
    let delete : Event := { entityID := "42", op := .delete }
    reconstruct [] false [create false, delete, delete] = .ok ([], true) ∧
      reconstruct [] true [create true] =
        reconstruct [] false ([create false, delete, delete] ++ [create true]) := by
  intro create delete
  have hcut : reconstruct [] false [create false, delete, delete] = .ok ([], true) := by
    decide +kernel
  exact ⟨hcut, (reconstruct_split [] false _ _).1 _ _ hcut⟩

variable {state : Fields} {deleted : Bool} {hist : List Event}

theorem reconstruct_concat {base : Fields} {deleted' : Bool} {events : List Event}
    (h : reconstruct base deleted events = .ok (state, deleted')) (ev : Event) :
    reconstruct base deleted (events ++ [ev]) = replayStep state deleted' ev := by
  rw [reconstruct_append, h]
  change reconstruct state deleted' [ev] = _
  rw [reconstruct_cons]
  cases replayStep state deleted' ev <;> rfl

theorem replayStep_delete {ev : Event} (hop : ev.op = .delete) :
    replayStep state deleted ev = .ok (workOf state deleted, true) :=
  if_pos hop

theorem replayStep_diff {target : Fields} {ev : Event} {opts : DiffOptions}
    (hopts : opts.arrayKeys = []) (hop : ev.op ≠ .delete)
    (hch : ev.changes = diff (.obj (workOf state deleted)) (.obj target) opts)
    (hs : (Json.obj (workOf state deleted)).Regular) (ht : (Json.obj target).Regular) :
    replayStep state deleted ev = .ok (target, false) := by
  rw [replayStep, if_neg hop, hch, apply_diff hopts hs ht]
  rfl

/-! ### What a history reports -/

/-- The history reaches the version, and its replay reports the state and flag there. -/
structure Reports (hist : List Event) (v : Nat) (state : Fields) (deleted : Bool) : Prop where
  le : v ≤ hist.length
  replay : reconstruct [] false (hist.take v) = .ok (state, deleted)

theorem Reports.mono {hist' : List Event} {v : Nat} (h : Reports hist v state deleted)
    (hp : hist <+: hist') : Reports hist' v state deleted := by
  obtain ⟨tail, rfl⟩ := hp
  refine ⟨h.le.trans (by simp), ?_⟩
  rw [take_append_of_le_length h.le]
  exact h.replay

theorem Reports.of_replay {v : Nat} (hv : v = hist.length)
    (h : reconstruct [] false hist = .ok (state, deleted)) : Reports hist v state deleted :=
  ⟨hv.le, by rw [hv, take_length, h]⟩

theorem Reports.whole (h : Reports hist hist.length state deleted) :
    reconstruct [] false hist = .ok (state, deleted) := by
  rw [← h.replay, take_length]

theorem Reports.unique {v : Nat} {s s' : Fields} {d d' : Bool} (h : Reports hist v s d)
    (h' : Reports hist v s' d') : s = s' ∧ d = d' := by
  have heq := h.replay.symm.trans h'.replay
  rw [Except.ok.injEq, Prod.mk.injEq] at heq
  exact heq

end Letopis
