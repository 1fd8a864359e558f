import Letopis.Worker.Worker

/-!
# The order of a worker's writes

The worker means to keep the order of the tasks of an entity by handling them in one goroutine. It
does not keep it when a write fails for a while: the goroutine moves on to the next task, and when
it reclaims the first one it applies it after the second (`tasks_overtake`). The order is kept in
all runs in which no task is started on while an earlier one of its entity is pending
(`worker_keeps_order`).

Within a run versions follow the order in which events are stored, since histories are gap-free and
an event that is stored gets the next version. What is left is that the events of an entity are
stored in the order of their tasks.
-/

namespace Letopis

open Interleaving List Function

/-- What the program of a message may do: follow the discipline of versions, and insert events of
its entity only. -/
def TaskMessage.Acts (m : TaskMessage) (seen : List (Obs Storage)) (call : Call) : Prop :=
  Disciplined seen call ∧ ∀ c ev, call = .insertEvent c ev →
    ∃ t, m = .task t ∧ c = t.command.collection ∧ ev.entityID = t.command.entityID

theorem Write.Does.inserts {w : Write} {seen : List (Obs Storage)} {call : Call}
    (h : w.Does seen call) {c : String} {ev : Event} (hcall : call = .insertEvent c ev) :
    c = w.cmd.collection ∧ ev.entityID = w.cmd.entityID := by
  cases h with
  | insert plan tail first =>
    cases hcall
    exact ⟨rfl, plan.event.1⟩
  | ensure | read | lastEvent | lastVersion | upsert | save => cases hcall

namespace Worker

variable {wk : Worker}

private theorem process_along (m : TaskMessage) (now : Stamps) :
    Along m.Acts (fun _ _ => True) (wk.process m now) [] := by
  cases m with
  | malformed => trivial
  | task t =>
    have happly : ∀ kind, Along (TaskMessage.task t).Acts (fun _ _ => True)
        (applyOne wk.ing now kind t.command >>= fun r => pure (settles r)) [] := by
      intro kind
      refine Along.bind_iff.mpr ((Write.along ⟨wk.ing, now, kind, t.command⟩).imp ?_
        fun _ _ _ => trivial)
      exact fun seen call hdoes => ⟨hdoes.disciplined,
        fun c ev hcall => ⟨t, rfl, hdoes.inserts hcall⟩⟩
    rw [process]
    split
    · trivial
    · exact happly _

private theorem of_inserts (srv : Server) {call : Call} {f : Fault} {db : Db} {ev : Event}
    (h : Call.inserts f db call = some ev) : ∃ c, call = .insertEvent c ev ∧ db.VersionFree c ev ∧
      ev ∈ (handle srv call f db).2.hist c ev.entityID := by
  cases call with
  | insertEvent c x =>
    rw [Call.inserts] at h
    split_ifs at h with hfree
    cases h
    refine ⟨c, rfl, hfree.2.1, ?_⟩
    cases f with
    | before => exact absurd rfl hfree.1
    | none | after => simp [handle, serve, hfree.2, Db.hist_append]
  | _ => cases h

private theorem dbs_handler_self (wk : Worker) (d : Delivery TaskMessage) (c : Call) (f : Fault)
    (store : WorkerStore) :
    (wk.handler d c f store).2.dbs d.message.database =
      (handle wk.srv c f (store.dbs d.message.database)).2 :=
  update_self ..

private theorem dbs_handler (wk : Worker) (d : Delivery TaskMessage) (c : Call) (f : Fault)
    (store : WorkerStore) {R : Db → Db → Prop} (hrefl : ∀ db, R db db)
    (hcall : R (store.dbs d.message.database)
      (handle wk.srv c f (store.dbs d.message.database)).2) (n : String) :
    R (store.dbs n) ((wk.handler d c f store).2.dbs n) := by
  by_cases hn : n = d.message.database
  · subst hn
    rwa [dbs_handler_self]
  · have hother : (wk.handler d c f store).2.dbs n = store.dbs n := update_of_ne hn ..
    rw [hother]
    exact hrefl _

/-- What holds in every state that a cautious run leads to. -/
structure Inv (wk : Worker) (w : Consumer.State Storage TaskMessage WorkerStore) : Prop where
  inStep : wk.consumer.InStep TaskMessage.entity w
  versions : ∀ n c e, (w.store.dbs n).Sequenced c e
  along : ∀ s d t rest, w.loops s = .handling d t rest →
    Along d.message.Acts (fun _ _ => True) t.prog t.seen
  facts : ∀ s d t rest, w.loops s = .handling d t rest →
    ∀ o ∈ t.seen, VersionFact o (w.store.dbs d.message.database)
  /-- What was stored is there, and was stored for a delivery that was started on. -/
  stored : ∀ x ∈ w.store.stored, x.1 ∈ w.started ∧ ∃ t, x.1.message = .task t ∧
    x.2 ∈ (w.store.dbs t.tenant.databaseName).hist t.command.collection t.command.entityID
  /-- The events of an entity were stored in the order of their tasks and of their versions. -/
  order : w.store.stored.Pairwise fun x y => x.1.message.entity = y.1.message.entity →
    x.1.id ≤ y.1.id ∧ x.2.version < y.2.version

namespace Inv

variable {w w' : Consumer.State Storage TaskMessage WorkerStore}

theorem initial {dbs : String → Db} (hdbs : ∀ n c e, (dbs n).Sequenced c e) :
    wk.Inv (Worker.initial dbs) :=
  ⟨Consumer.inStep_initial _, hdbs, fun _ _ _ _ h => (nomatch h), fun _ _ _ _ h => (nomatch h),
    fun _ h => (nomatch h), List.Pairwise.nil⟩

/-- A step of the queue: programs are started on or dropped, and the databases stay. -/
theorem set (h : wk.Inv w) (hstep : wk.consumer.InStep TaskMessage.entity w')
    (hstore : w'.store = w.store) (hstarted : w.started ⊆ w'.started)
    (hloops : ∀ s d t rest, w'.loops s = .handling d t rest →
      w.loops s = .handling d t rest ∨ ∃ now, t = .fresh (wk.process d.message now)) :
    wk.Inv w' := by
  refine ⟨hstep, by rw [hstore]; exact h.versions, fun s d t rest hl => ?_,
    fun s d t rest hl => ?_, fun x hx => ?_, by rw [hstore]; exact h.order⟩
  · rcases hloops s d t rest hl with hl | ⟨now, rfl⟩
    · exact h.along s d t rest hl
    · exact process_along d.message now
  · rw [hstore]
    rcases hloops s d t rest hl with hl | ⟨now, rfl⟩
    · exact h.facts s d t rest hl
    · exact fun o ho => absurd ho not_mem_nil
  · rw [hstore] at hx ⊢
    exact ⟨hstarted (h.stored x hx).1, (h.stored x hx).2⟩

section Call

variable {s : Nat} {d : Delivery TaskMessage} {c : Call}
  {cont : Storage.Reply c → Prog Storage Bool} {seen : List (Obs Storage)}
  {rest : List (Delivery TaskMessage)} {f : Fault}

/-- A call that is made for a delivery keeps histories gap-free and what programs know of them
right. -/
theorem sound (h : wk.Inv w) (hloop : w.loops s = .handling d ⟨.call c cont, seen⟩ rest) :
    let db := w.store.dbs d.message.database
    (∀ c' e, (handle wk.srv c f db).2.Sequenced c' e) ∧
      VersionFact ⟨c, (handle wk.srv c f db).1⟩ (handle wk.srv c f db).2 ∧
      ∀ o, VersionFact o db → VersionFact o (handle wk.srv c f db).2 := by
  intro db
  have hacts : d.message.Acts seen c := (h.along s d _ rest hloop).1
  obtain ⟨hinv, hnew, hold⟩ := versionLedger_sound (ι := Unit) wk.srv () seen c f db hacts.1 trivial
    (h.versions d.message.database) (h.facts s d _ rest hloop)
  exact ⟨hinv, hnew, hold ()⟩

/-- What is stored comes after everything that was stored for its entity before. -/
theorem stored_last (h : wk.Inv w) (hloop : w.loops s = .handling d ⟨.call c cont, seen⟩ rest)
    {ev : Event} (hev : Call.inserts f (w.store.dbs d.message.database) c = some ev) :
    (∃ t, d.message = .task t ∧ ev ∈ (handle wk.srv c f
      (w.store.dbs t.tenant.databaseName)).2.hist t.command.collection t.command.entityID) ∧
    ∀ x ∈ w.store.stored, x.1.message.entity = d.message.entity →
      x.1.id ≤ d.id ∧ x.2.version < ev.version := by
  have hacts : d.message.Acts seen c := (h.along s d _ rest hloop).1
  obtain ⟨coll, rfl, hfree, hmem⟩ := of_inserts wk.srv hev
  obtain ⟨t, ht, rfl, he⟩ := hacts.2 coll ev rfl
  have hdb : d.message.database = t.tenant.databaseName := by rw [ht, TaskMessage.database]
  rw [hdb] at hfree hmem
  refine ⟨⟨t, ht, he ▸ hmem⟩, fun x hx hentity => ?_⟩
  obtain ⟨hstarted, t', ht', hx'⟩ := h.stored x hx
  refine ⟨h.inStep.le x.1 hstarted s d (.inr (by rw [hloop]; rfl)) hentity, ?_⟩
  -- the history that the event extends is the one that the earlier event is in
  rw [ht', ht, TaskMessage.entity, TaskMessage.entity, Sum.inl.injEq, TaskEntity.mk.injEq]
    at hentity
  obtain ⟨htenant, hcoll, heid⟩ := hentity
  rw [htenant, hcoll, heid] at hx'
  have hseq := h.versions t.tenant.databaseName t.command.collection t.command.entityID
  have hnext := hacts.1.version_eq (hdb ▸ h.facts s d _ rest hloop) hseq he hfree
  have hle := (hseq.mem_versions hx').2
  omega

/-- A storage call of the handler keeps it. -/
theorem call (h : wk.Inv w) (hloop : w.loops s = .handling d ⟨.call c cont, seen⟩ rest)
    (hstep : wk.consumer.InStep TaskMessage.entity w')
    (hstore : w'.store = (wk.handler d c f w.store).2)
    (hloops : w'.loops = update w.loops s (.handling d
      ⟨cont (wk.handler d c f w.store).1, ⟨c, (wk.handler d c f w.store).1⟩ :: seen⟩ rest))
    (hstarted : w'.started = w.started) : wk.Inv w' := by
  obtain ⟨hseq, hnew, hold⟩ := h.sound (f := f) hloop
  have hlog : w'.store.stored = w.store.stored ++
      ((Call.inserts f (w.store.dbs d.message.database) c).map fun ev => (d, ev)).toList := by
    rw [hstore]; rfl
  have hown : w'.store.dbs d.message.database =
      (handle wk.srv c f (w.store.dbs d.message.database)).2 := by
    rw [hstore, dbs_handler_self]
  have hfact : ∀ n o, VersionFact o (w.store.dbs n) → VersionFact o (w'.store.dbs n) := by
    rw [hstore]
    exact fun n o => wk.dbs_handler d c f w.store
      (R := fun db db' => VersionFact o db → VersionFact o db') (fun _ => id) (hold o) n
  have hhist : ∀ n c' e, (w.store.dbs n).hist c' e ⊆ (w'.store.dbs n).hist c' e := by
    rw [hstore]
    exact fun n c' e => wk.dbs_handler d c f w.store
      (R := fun db db' => db.hist c' e ⊆ db'.hist c' e) (fun _ => List.Subset.refl _)
      (hist_prefix_handle ..).subset n
  -- the program of the delivery has gone on, and no other
  have hprog : ∀ s' d' t' rest', w'.loops s' = .handling d' t' rest' →
      w.loops s' = .handling d' t' rest' ∨ d' = d ∧ t' =
        ⟨cont (wk.handler d c f w.store).1, ⟨c, (wk.handler d c f w.store).1⟩ :: seen⟩ := by
    intro s' d' t' rest' hl
    rw [hloops] at hl
    by_cases hs : s' = s
    · rw [hs, update_self] at hl
      cases hl
      exact .inr ⟨rfl, rfl⟩
    · rw [update_of_ne hs] at hl
      exact .inl hl
  refine ⟨hstep, fun n c' e => ?_, fun s' d' t' rest' hl => ?_, fun s' d' t' rest' hl => ?_,
    fun x hx => ?_, ?_⟩
  · rw [hstore]
    exact wk.dbs_handler d c f w.store (R := fun db db' => db.Sequenced c' e → db'.Sequenced c' e)
      (fun _ => id) (fun _ => hseq c' e) n (h.versions n c' e)
  · rcases hprog s' d' t' rest' hl with hl | ⟨rfl, rfl⟩
    · exact h.along s' d' t' rest' hl
    · exact (h.along s d' _ rest hloop).2 _
  · rcases hprog s' d' t' rest' hl with hl | ⟨rfl, rfl⟩
    · exact fun o ho => hfact _ o (h.facts s' d' t' rest' hl o ho)
    · refine forall_mem_cons.mpr ⟨?_, fun o ho => hfact _ o (h.facts s d' _ rest hloop o ho)⟩
      rw [hown]
      exact hnew
  · rw [hlog, mem_append, Option.mem_toList, Option.map_eq_some_iff] at hx
    rw [hstarted]
    rcases hx with hx | ⟨ev, hev, rfl⟩
    · obtain ⟨hxs, t, ht, hmem⟩ := h.stored x hx
      exact ⟨hxs, t, ht, hhist _ _ _ hmem⟩
    · obtain ⟨t, ht, hmem⟩ := (h.stored_last hloop hev).1
      refine ⟨h.inStep.current s d (by rw [hloop]; rfl), t, ht, ?_⟩
      have hn : d.message.database = t.tenant.databaseName := by rw [ht, TaskMessage.database]
      rwa [← hn, hown, hn]
  · rw [hlog]
    refine pairwise_append.mpr ⟨h.order, ?_, fun x hx y hy hentity => ?_⟩
    · cases Call.inserts f (w.store.dbs d.message.database) c <;> simp
    · rw [Option.mem_toList, Option.map_eq_some_iff] at hy
      obtain ⟨ev, hev, rfl⟩ := hy
      exact (h.stored_last hloop hev).2 x hx hentity

end Call

/-- A careful step keeps the invariant. -/
theorem step (h : wk.Inv w) {l : Consumer.Label Fault TaskMessage Stamps}
    (hc : Consumer.Careful TaskMessage.entity w l) : wk.Inv (wk.consumer.step w l) := by
  have hstep : wk.consumer.InStep TaskMessage.entity (wk.consumer.step w l) :=
    h.inStep.step (fun m m' hm => congrArg (shard · wk.shards) (TaskMessage.key_eq_of_entity_eq hm))
      hc
  have hhandling : (∀ s f, l ≠ .call s f) → ∀ s d t rest,
      (wk.consumer.step w l).loops s = .handling d t rest →
      w.loops s = .handling d t rest ∨ ∃ now, t = .fresh (wk.process d.message now) := by
    intro hl s d t rest hloop
    rcases Consumer.handling_step hloop with hold | hnew | ⟨f, _, _, _, hcall, _⟩
    · exact .inl hold
    · exact .inr hnew
    · exact absurd hcall (hl s f)
  rcases Consumer.step_cases (k := wk.consumer) w l with heq | hmove
  · rwa [heq]
  generalize wk.consumer.step w l = w' at hmove hstep hhandling
  cases hmove with
  | publish | pump | reclaim | finish =>
    exact h.set hstep rfl (List.Subset.refl _) (hhandling fun _ _ => nofun)
  | receive | next =>
    exact h.set hstep rfl (subset_append_left ..) (hhandling fun _ _ => nofun)
  | call loop => exact h.call loop hstep rfl rfl rfl

theorem run (h : wk.Inv w) {ls : List (Consumer.Label Fault TaskMessage Stamps)}
    (hc : wk.consumer.Cautious TaskMessage.entity w ls) : wk.Inv (wk.consumer.run w ls) := by
  induction ls generalizing w with
  | nil => exact h
  | cons l ls ih => exact ih (h.step hc.1) hc.2

theorem tasksInOrder (h : wk.Inv w) : TasksInOrder w := by
  intro x hx y hy hentity hlt
  obtain ⟨i, hi, rfl⟩ := getElem_of_mem hx
  obtain ⟨j, hj, rfl⟩ := getElem_of_mem hy
  have hpair := pairwise_iff_getElem.mp h.order
  rcases lt_trichotomy i j with hij | rfl | hji
  · exact (hpair i j hi hj hij hentity).2
  · exact absurd hlt (lt_irrefl _)
  · exact absurd (hpair j i hj hi hji hentity.symm).1 (not_le.mpr hlt)

end Inv

/-- **The worker keeps the order of the tasks of an entity** in every run, whatever fails, in which
no task is started on while an earlier one of its entity is pending. -/
theorem worker_keeps_order (wk : Worker) {dbs : String → Db}
    (hdbs : ∀ n c e, (dbs n).Sequenced c e) {ls : List (Consumer.Label Fault TaskMessage Stamps)}
    (hc : wk.consumer.Cautious TaskMessage.entity (initial dbs) ls) :
    TasksInOrder (wk.consumer.run (initial dbs) ls) :=
  ((Inv.initial hdbs).run hc).tasksInOrder

end Worker

/-! ### Two tasks -/

/-- A task that sets the state of an entity. -/
def QueuedTask.ofState (state : Fields) : QueuedTask :=
  ⟨{ id := "acme" }, .state, .durable, "", { collection := "deals", entityID := "42", state }⟩

/-- Two tasks for an entity are published, and the worker receives the first one. The database
cannot be reached, so the task is left pending. -/
def firstFails : List (Consumer.Label Fault TaskMessage Stamps) :=
  [.publish (.task (.ofState [("won", .bool false)])),
    .publish (.task (.ofState [("won", .bool true)])),
    .pump 0, .receive 0 ⟨⟨1⟩, ⟨1⟩⟩, .call 0 .before, .finish 0 true]

/-- The worker handles what it has started on, and nothing fails. -/
def handled : List (Consumer.Label Fault TaskMessage Stamps) :=
  List.replicate 5 (.call 0 .none) ++ [.finish 0 true]

/-- The worker reclaims the first task. -/
def reclaimed : List (Consumer.Label Fault TaskMessage Stamps) :=
  [.reclaim 0 [⟨0, .task (.ofState [("won", .bool false)])⟩], .next 0 ⟨⟨3⟩, ⟨3⟩⟩] ++ handled

/-- The worker receives the second task. -/
def received : List (Consumer.Label Fault TaskMessage Stamps) :=
  [.pump 0, .receive 0 ⟨⟨2⟩, ⟨2⟩⟩] ++ handled

namespace Worker

/-- A worker that reclaims the first task before it receives the second keeps the order. -/
theorem worker_keeps_order_reclaimed_first :
    let wk : Worker := { shards := 1 }
    let w := wk.consumer.run (initial fun _ _ => {}) (firstFails ++ reclaimed ++ received)
    (w.store.stored.map fun x => (x.1.id, x.2.version)) = [(0, 1), (1, 2)] ∧ TasksInOrder w := by
  refine ⟨by decide +kernel, worker_keeps_order _ ?_ (by decide +kernel)⟩
  exact fun n c e => Db.Blank.sequenced (fun _ => ⟨rfl, fun _ => rfl⟩) c e

/-- A worker that receives the second task first stores it at the lower version, and the entity ends
up in the state of the first. -/
theorem tasks_overtake :
    let wk : Worker := { shards := 1 }
    let w := wk.consumer.run (initial fun _ _ => {}) (firstFails ++ received ++ reclaimed)
    (w.store.stored.map fun x => (x.1.id, x.2.version)) = [(1, 1), (0, 2)] ∧ ¬ TasksInOrder w ∧
      ((w.store.dbs "hm_t_acme" "deals").current "42").map CurrentState.state =
        some [("won", .bool false)] := by
  decide +kernel

end Worker

end Letopis
