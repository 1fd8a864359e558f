import Letopis.Runs.Repeats
import Letopis.Runs.Report

/-!
# Expected versions in a batch

A command may carry the version that its author expects the entity to have. A single write compares
it with the current version and fails with a conflict if the two differ. A batch plans its items
against the states its entities have reached in the fold, but never looks at the expected version:
no item of a batch is reported as a conflict (`Batch.report_ne_versionConflict`). So the versions
that the items expect are respected exactly if each of them happens to be the version that the
entity has reached when the item's turn comes.
-/

namespace Letopis

open Interleaving

/-- No failure is a conflict. -/
def NoConflict (errs : Nat → Option IngestErr) : Prop := ∀ k, errs k ≠ some .versionConflict

/-! ### A batch never reports a conflict -/

namespace Batch

variable (srv : Server) (b : Batch) (cfg : CollectionConfig) (c : String)

private theorem outcome_ne_versionConflict (last : Option Event) (it : BatchItem) (k : Nat)
    (cur : Option CurrentState) : b.outcome cfg c last it k cur ≠ .error .versionConflict := by
  intro h
  rw [outcome_eq] at h
  split at h
  · next hplan =>
    cases h
    rcases planEvent_error hplan with ⟨cause, herr⟩ | herr | ⟨name, -, herr⟩ <;> cases herr
  · cases h
  · split_ifs at h
    · next ev newState deleted _ _ =>
      generalize hrun : runPreStore cfg c ⟨last, cur⟩ b.ing.pre ev = hooked at h
      cases hooked with
      | error e =>
        cases h
        obtain ⟨name, cause, herr⟩ := runPreStore_error hrun
        cases herr
      | ok ev' => cases h
    · cases h

private theorem noConflict_step {st : Fold} (h : NoConflict st.errs) (p : BatchItem × Nat) :
    NoConflict (b.step cfg c st p).errs := by
  rw [step, planItem_eq]
  generalize hout : b.outcome cfg c _ p.1 p.2 _ = out
  rcases out with e | (_ | ⟨ev, newState, deleted⟩)
  · intro k
    by_cases hk : k = p.2
    · subst hk
      simp only [Fold.settle, Fold.fail, Function.update_self]
      intro heq
      rw [Option.some.inj heq] at hout
      exact b.outcome_ne_versionConflict cfg c _ _ _ _ hout
    · simpa only [Fold.settle, Fold.fail, Function.update_of_ne hk] using h k
  · exact h
  · exact h

private theorem noConflict_foldl {st : Fold} (h : NoConflict st.errs)
    (items : List (BatchItem × Nat)) : NoConflict (items.foldl (b.step cfg c) st).errs := by
  induction items generalizing st with
  | nil => exact h
  | cons p items ih => exact ih (b.noConflict_step cfg c h p)

/-- **No item is reported as a conflict.** -/
theorem report_ne_versionConflict (db : Db) (k : Nat) :
    (b.ingestBatch.eval (serve srv) db).1[k]? ≠ some (some .versionConflict) := by
  intro h
  have hk : k < b.items.length := by
    rw [← (b.eval_ingestBatch srv db).2.1]
    exact (List.getElem?_eq_some_iff.mp h).1
  have hit : b.items[k]? = some b.items[k] := List.getElem?_eq_getElem hk
  rw [(b.eval_ingestBatch srv db).2.2 k _ hit, Option.some.injEq, alone, eval_batchCollection,
    eval_flush] at h
  set c := b.items[k].command.collection
  have hfold : NoConflict (b.folded c (db c) (fun _ => none) (b.itemsOf c)).errs :=
    b.noConflict_foldl (db c).config c (fun _ => by simp [Fold.loaded]) _
  split_ifs at h
  · exact hfold k h
  · dsimp only at h
    split at h
    · dsimp only [failAll] at h
      split_ifs at h
      · cases h
      · exact hfold k h
    · exact hfold k h

/-! ### Expected versions -/

/-- The version that the entity of an item has reached in the batch before the item's turn. -/
def versionBefore (db : Db) (k : Nat) (it : BatchItem) : Nat :=
  (baseState (b.reached k it (db it.command.collection))).2

/-- The expected versions are respected: an event is stored for an item only if the entity has
reached the version that the item expects, and otherwise a conflict is reported for the item. -/
def LocksHold (db : Db) : Prop :=
  ∀ k it n, b.items[k]? = some it → it.command.expectedVersion = some n →
    (b.Stored srv db k it → (b.versionBefore db k it : Int) = n) ∧
      ((b.versionBefore db k it : Int) ≠ n →
        (b.ingestBatch.eval (serve srv) db).1[k]? = some (some .versionConflict))

end Batch

/-- **Expected versions in a batch** are respected if and only if each of them is the version that
its entity has reached when the item's turn comes. -/
theorem batch_locks_iff (srv : Server) (b : Batch) (db : Db) :
    b.LocksHold srv db ↔ ∀ k it n, b.items[k]? = some it →
      it.command.expectedVersion = some n → (b.versionBefore db k it : Int) = n := by
  constructor
  · intro h k it n hit hn
    by_contra hne
    exact b.report_ne_versionConflict srv db k ((h k it n hit hn).2 hne)
  · intro h k it n hit hn
    exact ⟨fun _ => h k it n hit hn, fun hne => absurd (h k it n hit hn) hne⟩

/-- A deal that is stored in version 1 is written in a batch by somebody who expects version 7. The
event is stored and no failure is reported. -/
theorem batch_ignores_lock :
    let db := ((Write.ofState "deals" "42" [("won", .bool false)]).prog.eval (serve .mongo)
      fun _ => {}).2
    let item : BatchItem := ⟨.state, { collection := "deals", entityID := "42",
                                       expectedVersion := some 7, state := [("won", .bool true)] }⟩
    let b : Batch := ⟨{}, fun _ => ⟨⟨2⟩, ⟨2⟩⟩, [item]⟩
    b.versionBefore db 0 item = 1 ∧ (b.ingestBatch.eval (serve .mongo) db).1 = [none] ∧
      ((b.ingestBatch.eval (serve .mongo) db).2 "deals").events.map Event.version = [1, 2] := by
  decide +kernel

end Letopis
