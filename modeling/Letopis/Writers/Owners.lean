import Letopis.Service.IngestTrace
import Letopis.Storage.Frame

/-!
# Whose events these are

Three facts about runs of arbitrary programs over the store. An insertion that was answered
without error stays in the store; no two insertions answered without error, by whichever
threads, had the same entity and version; and where no call fails, every event that is not
from before the run was inserted by one of its threads.
-/

namespace Letopis

open Interleaving List

private theorem mem_events_handle {srv : Server} {call : Call} {f : Fault} {db : Db} {c : String}
    {ev : Event} (h : ev ∈ (db c).events) : ev ∈ ((handle srv call f db).2 c).events := by
  have hmem : ev ∈ db.hist c ev.entityID := Db.mem_hist.mpr ⟨h, rfl⟩
  rcases hist_handle srv call f db c ev.entityID with heq | ⟨x, -, -, -, -, -, happ⟩
  · exact (Db.mem_hist.mp (heq ▸ hmem)).1
  · exact (Db.mem_hist.mp (happ ▸ mem_append_left _ hmem)).1

/-- An insertion answered without error is in the store. -/
def insertLedger (ι : Type) : Ledger ι Storage Db where
  inv _ := True
  fact _ o db := ∀ c ev, o = ⟨.insertEvent c ev, .ok ()⟩ → ev ∈ (db c).events

private theorem insertLedger_sound {ι : Type} (srv : Server) : (insertLedger ι).Sound (handle srv)
    (fun _ _ _ => True) (fun _ _ _ _ _ => True) := by
  intro i seen call f db _ _ _ _
  refine ⟨trivial, fun c ev ho => ?_, fun j o hfact c ev ho => mem_events_handle (hfact c ev ho)⟩
  obtain ⟨rfl, hr⟩ := Sigma.mk.inj_iff.mp ho
  rw [(insertEvent_ok (eq_of_heq hr)).2.2.2]
  simp [Db.append_events]

section

variable {ι α : Type} [DecidableEq ι] {srv : Server} {db : Db} {p : ι → Prog Storage α}
  {sched : List (ι × Fault)}

variable (srv db p sched) in
theorem hist_prefix_run (c e : String) : db.hist c e <+:
    ((Config.initial db p).run (handle srv) sched).store.hist c e := by
  have hm : (Config.initial db p).Meets (handle srv) (fun _ _ _ _ _ => True) sched :=
    Config.meets_true
  have hP := Config.run_induction (P := fun cfg : Config ι Storage α Db =>
    cfg.Follows (fun _ _ _ => True) (fun _ _ _ => True) ∧ db.hist c e <+: cfg.store.hist c e) ?_
    ⟨fun i => Along.trivial, prefix_rfl⟩ hm
  · exact hP.2
  · rintro cfg a ⟨hf, hle⟩ -
    refine ⟨hf.step a, ?_⟩
    rcases hf.step_cases (h := handle srv) a with heq | ⟨call, k, -, -, hstore, -⟩
    · rwa [heq]
    · rw [hstore]
      exact hle.trans (hist_prefix_handle srv call a.2 cfg.store c e)

theorem inserted_run {i : ι} {c : String} {ev : Event}
    (h : Saw (((Config.initial db p).run (handle srv) sched).threads i).seen
      (.insertEvent c ev) (.ok ())) :
    ev ∈ (((Config.initial db p).run (handle srv) sched).store c).events := by
  have hf : (Config.initial db p).Follows (fun _ _ _ => True) (fun _ _ _ => True) :=
    fun i => Along.trivial
  have hholds := (Ledger.holds_initial (L := insertLedger ι) trivial p).run
    (insertLedger_sound srv) hf (Config.meets_true (s := sched))
  exact hholds.fact i _ h c ev rfl

/-- No two threads have inserted the same version of an entity. -/
def Distinct (cfg : Config ι Storage α Db) : Prop :=
  ∀ i j c ev ev', i ≠ j → Saw (cfg.threads i).seen (.insertEvent c ev) (.ok ()) →
    Saw (cfg.threads j).seen (.insertEvent c ev') (.ok ()) →
    ¬ (ev.entityID = ev'.entityID ∧ ev.version = ev'.version)

/-- **Every version has one owner.** -/
theorem distinct_run : Distinct ((Config.initial db p).run (handle srv) sched) := by
  have hstart : (Config.initial db p).Follows (fun _ _ _ => True) (fun _ _ _ => True) ∧
      (insertLedger ι).Holds (Config.initial db p) ∧ Distinct (Config.initial db p) :=
    ⟨fun i => Along.trivial, Ledger.holds_initial trivial p,
      fun i j c ev ev' _ hi => absurd hi not_mem_nil⟩
  have hm : (Config.initial db p).Meets (handle srv) (fun _ _ _ _ _ => True) sched :=
    Config.meets_true
  have hP := Config.run_induction (P := fun cfg : Config ι Storage α Db =>
    cfg.Follows (fun _ _ _ => True) (fun _ _ _ => True) ∧ (insertLedger ι).Holds cfg ∧
      Distinct cfg) ?_ hstart hm
  · exact hP.2.2
  · rintro cfg a ⟨hf, hL, hd⟩ ha
    refine ⟨hf.step a, hL.step (insertLedger_sound srv) hf ha, ?_⟩
    rcases hf.step_cases (h := handle srv) a with heq | ⟨call, k, -, -, -, hseen⟩
    · rwa [heq]
    -- a new insertion is of a version that nobody holds
    have hnew : ∀ c ev, (⟨call, (handle srv call a.2 cfg.store).1⟩ : Obs Storage) =
        ⟨.insertEvent c ev, .ok ()⟩ → ∀ j ev', Saw (cfg.threads j).seen (.insertEvent c ev')
          (.ok ()) → ¬ (ev'.entityID = ev.entityID ∧ ev'.version = ev.version) := by
      intro c ev ho j ev' hj
      obtain ⟨rfl, hr⟩ := Sigma.mk.inj_iff.mp ho
      exact (insertEvent_ok (eq_of_heq hr)).2.1 ev' (hL.fact j _ hj c ev' rfl)
    intro i j c ev ev' hij hi hj
    rw [Saw, hseen] at hi hj
    by_cases hia : i = a.1
    · subst hia
      rw [if_pos rfl] at hi
      rw [if_neg hij.symm] at hj
      rcases mem_cons.mp hi with ho | hi
      · exact fun hev => hnew c ev ho.symm j ev' hj ⟨hev.1.symm, hev.2.symm⟩
      · exact hd a.1 j c ev ev' hij hi hj
    · rw [if_neg hia] at hi
      by_cases hja : j = a.1
      · subst hja
        rw [if_pos rfl] at hj
        rcases mem_cons.mp hj with ho | hj
        · exact hnew c ev' ho.symm i ev hi
        · exact hd i a.1 c ev ev' hij hi hj
      · rw [if_neg hja] at hj
        exact hd i j c ev ev' hij hi hj

/-- **Every new event has an owner**, where no call fails. -/
theorem owned_run (hm : (Config.initial db p).Meets (handle srv)
    (fun _ _ _ f _ => f = .none) sched) {c e : String} {ev : Event}
    (hev : ev ∈ ((Config.initial db p).run (handle srv) sched).store.hist c e) :
    ev ∈ db.hist c e ∨ ∃ i, Saw (((Config.initial db p).run (handle srv) sched).threads i).seen
      (.insertEvent c ev) (.ok ()) := by
  have hP := Config.run_induction (h := handle srv) (C := fun _ _ _ f _ => f = .none)
    (P := fun cfg : Config ι Storage α Db =>
      cfg.Follows (fun _ _ _ => True) (fun _ _ _ => True) ∧
        ∀ ev ∈ cfg.store.hist c e, ev ∈ db.hist c e ∨
          ∃ i, Saw (cfg.threads i).seen (.insertEvent c ev) (.ok ())) ?_
    ⟨fun i => Along.trivial, fun ev hev => .inl hev⟩ hm
  · exact hP.2 ev hev
  · rintro cfg a ⟨hf, hown⟩ ha
    refine ⟨hf.step a, fun ev hev => ?_⟩
    rcases hf.step_cases (h := handle srv) a with heq | ⟨call, k, hprog, -, hstore, hseen⟩
    · rw [heq] at hev ⊢
      exact hown ev hev
    -- what a thread has inserted stays on its record
    have hkeep : (ev ∈ db.hist c e ∨ ∃ i, Saw (cfg.threads i).seen (.insertEvent c ev) (.ok ())) →
        ev ∈ db.hist c e ∨ ∃ i, Saw ((cfg.step (handle srv) a).threads i).seen
          (.insertEvent c ev) (.ok ()) := by
      rintro (h | ⟨i, hi⟩)
      · exact .inl h
      · refine .inr ⟨i, ?_⟩
        rw [Saw, hseen]
        split_ifs with hia
        · subst hia
          exact mem_cons_of_mem _ hi
        · exact hi
    rw [hstore] at hev
    have hnone : a.2 = .none := ha call k hprog
    rcases hist_handle srv call a.2 cfg.store c e with heq | ⟨x, rfl, -, -, hfree, hid, happ⟩
    · exact hkeep (hown ev (heq ▸ hev))
    · rw [happ] at hev
      rcases mem_append.mp hev with hev | hev
      · exact hkeep (hown ev hev)
      · rw [mem_singleton.mp hev]
        refine .inr ⟨a.1, ?_⟩
        rw [Saw, hseen, if_pos rfl, hnone]
        simp [handle, serve, hfree, hid]

end

end Letopis
