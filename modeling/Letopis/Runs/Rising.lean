import Letopis.Runs.Extend
import Letopis.Runs.Report
import Letopis.Writers.Versions

/-!
# Versions only grow

Without faults and one after the other, writes and batches never set the current state of an entity
back to an earlier version: a write refreshes it to the version after the last event, a batch to a
version counted up from the one it loaded.
-/

namespace Letopis

open Interleaving Function

/-! ### A write -/

private theorem Write.curVersion_le (srv : Server) (w : Write) {db : Db}
    (hseq : ∀ c e, db.Sequenced c e) (c e : String) :
    db.curVersion c e ≤ (w.prog.eval (serve srv) db).2.curVersion c e := by
  -- a refresh is to the version after the last event
  have hrefresh : ∀ ev newState deleted, db.curVersion c e ≤
      ((db.append w.coll (w.next db ev)).upsert w.coll
        (w.refreshed db ev newState deleted)).curVersion c e := by
    intro ev newState deleted
    rw [Db.curVersion, Db.curVersion, Db.upsert_current]
    split_ifs with hown
    · obtain ⟨rfl, rfl⟩ := hown
      rw [baseState_some_version]
      exact (hseq _ _).curVersion_le_top.trans (Nat.le_succ _)
    · simp
  obtain ⟨seen, heff⟩ := w.effect_eval srv db
  generalize (w.prog.eval (serve srv) db).1 = value at heff
  generalize (w.prog.eval (serve srv) db).2 = db' at heff ⊢
  cases heff with
  | failed | undecided | noChange | duplicate => exact le_rfl
  | lost _ _ hfault => cases hfault
  | stale _ _ hfault =>
    obtain ⟨f, hf, hne⟩ := hfault
    exact absurd hf hne
  | stored hdec hfree _ _ hdb' =>
    rcases hdb' with rfl | rfl
    · exact hrefresh _ _ _
    · have hsave : ∀ (db : Db) snap, (db.save w.coll snap).curVersion c e = db.curVersion c e :=
        fun db snap => by simp [Db.curVersion]
      rw [hsave]
      exact hrefresh _ _ _

/-! ### A batch -/

/-- The states that the fold has reached and those it is going to write are at least at the versions
`base`. -/
structure Fold.Above (base : String → Nat) (st : Fold) : Prop where
  running : ∀ e, base e ≤ (baseState (st.running e).join).2
  finals : ∀ e fin, st.finals e = some fin → fin.entityID = e ∧ base e ≤ fin.version

namespace Batch

variable {b : Batch} {cfg : CollectionConfig} {c : String}

private theorem above_step {base : String → Nat} {st : Fold} (h : st.Above base)
    (p : BatchItem × Nat) : (b.step cfg c st p).Above base := by
  rw [step, planItem_eq]
  generalize hcur : (st.running p.1.command.entityID).join = cur
  rcases hout : b.outcome cfg c (st.lastEv p.1.command.entityID) p.1 p.2 cur
    with err | (_ | ⟨ev, newState, deleted⟩)
  · exact ⟨h.running, h.finals⟩
  · exact h
  · obtain ⟨-, -, hv⟩ := outcome_event hout
    have hbase : base p.1.command.entityID ≤ ev.version := by
      have hle := h.running p.1.command.entityID
      rw [hcur] at hle
      omega
    refine ⟨fun e => ?_, fun e fin hfin => ?_⟩
    · simp only [Fold.settle, Fold.push]
      by_cases he : e = p.1.command.entityID
      · subst he
        rw [update_self, Option.join_some, baseState_some_version]
        exact hbase
      · rw [update_of_ne he]
        exact h.running e
    · simp only [Fold.settle, Fold.push] at hfin
      by_cases he : e = p.1.command.entityID
      · subst he
        rw [update_self] at hfin
        cases hfin
        exact ⟨rfl, hbase⟩
      · rw [update_of_ne he] at hfin
        exact h.finals e fin hfin

private theorem above_foldl {base : String → Nat} {st : Fold} (h : st.Above base)
    (items : List (BatchItem × Nat)) : (items.foldl (b.step cfg c) st).Above base := by
  induction items generalizing st with
  | nil => exact h
  | cons p items ih => exact ih (above_step h p)

private theorem curVersion_le (srv : Server) (b : Batch) (db : Db) (c e : String) :
    db.curVersion c e ≤ (b.ingestBatch.eval (serve srv) db).2.curVersion c e := by
  have habove : (b.folded c (db c) (fun _ => none) (b.itemsOf c)).Above
      fun e => (baseState ((db c).current e)).2 :=
    above_foldl ⟨fun e => by simp [Fold.loaded], fun e fin hfin => by simp [Fold.loaded] at hfin⟩ _
  rw [Db.curVersion, Db.curVersion, (b.eval_ingestBatch srv db).1]
  dsimp only
  rw [alone, eval_batchCollection, eval_flush]
  generalize b.folded c (db c) (fun _ => none) (b.itemsOf c) = st at habove ⊢
  have hstore := (eval_insertMany srv c (st.events.map Prod.fst) (db c)).1
  split_ifs
  · exact le_rfl
  · dsimp only
    cases ((insertMany c (st.events.map Prod.fst)).eval (serveIn srv) (db c)).1 with
    | error err =>
      dsimp only
      rw [hstore]
    | ok u =>
      dsimp only
      rw [Prog.eval_bind, eval_upsertFinals srv c (fun e fin hfin => (habove.finals e fin hfin).1),
        eval_buildSnapshots, (Coll.foldl_keep_frame _ _ _ _).2.2, hstore]
      dsimp only
      split_ifs
      · cases hfin : st.finals e with
        | none => exact le_rfl
        | some fin =>
          rw [Option.some_or, baseState_some_version]
          exact (habove.finals e fin hfin).2
      · exact le_rfl

end Batch

/-! ### Runs -/

/-- The store after writes and batches that run one after the other without faults. -/
def afterJobs (srv : Server) (db : Db) (jobs : List Job) : Db :=
  ((Session.mk [] db).run (handle srv) (jobs.map fun j => (j.prog, fun _ _ => Fault.none))).store

private theorem Job.curVersion_le (srv : Server) (j : Job) {db : Db}
    (hseq : ∀ c e, db.Sequenced c e) (c e : String) : db.curVersion c e ≤
      (j.prog.exec (handle srv) (fun _ _ => Fault.none) [] db).store.curVersion c e := by
  have hstore : (j.prog.exec (handle srv) (fun _ _ => Fault.none) [] db).store =
      (j.prog.eval (serve srv) db).2 := Prog.exec_const.2
  rw [hstore]
  cases j with
  | write w =>
    rw [Job.prog, Prog.eval_bind]
    exact w.curVersion_le srv hseq c e
  | batch b =>
    rw [Job.prog, Prog.eval_bind]
    exact b.curVersion_le srv db c e

/-- **Versions only grow** along a run without faults. -/
theorem curVersion_le_afterJobs (srv : Server) {db : Db} (hseq : ∀ c e, db.Sequenced c e)
    (jobs : List Job) (c e : String) :
    db.curVersion c e ≤ (afterJobs srv db jobs).curVersion c e := by
  have hrun : (∀ c e, (afterJobs srv db jobs).Sequenced c e) ∧
      db.curVersion c e ≤ (afterJobs srv db jobs).curVersion c e := by
    refine Session.run_induction (C := fun _ => True)
      (P := fun s : Session Storage Db => (∀ c e, s.store.Sequenced c e) ∧
        db.curVersion c e ≤ s.store.curVersion c e) (fun s a ha _ hs => ?_) Session.meets_true
      ⟨hseq, le_rfl⟩
    obtain ⟨j, -, rfl⟩ := List.mem_map.mp ha
    exact ⟨Job.sequenced_run srv hs.1 [(j, fun _ _ => Fault.none)],
      hs.2.trans (j.curVersion_le srv hs.1 c e)⟩
  exact hrun.2

end Letopis
