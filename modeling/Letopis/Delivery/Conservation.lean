import Letopis.Delivery.Dispatcher
import Letopis.Interleaving.Trace

/-!
# Deliveries are not lost

A delivery is accounted for if it was answered, or an attempt of it is on the queue, or it is
parked. The dispatcher acknowledges a task when the next attempt is only held in memory: until a
goroutine publishes it the delivery is not accounted for, and if the process ends before that it is
lost (`delivery_lost`). It is lost as well if it cannot be parked. Otherwise it is accounted for
(`delivery_accounted`).

The attempts of a delivery that are on the queue may be several, so what is known of one that was
handled has to be found elsewhere than with an attempt that is about to be acknowledged itself. It
is found with later ones: the next attempt always has a higher id.
-/

namespace Letopis

open Interleaving List

namespace DispatchStore

variable (st : DispatchStore) (x : String)

/-- The delivery is parked. -/
def Parked : Prop := ∃ p ∈ st.dlq, p.2.deliveryID = x

/-- An attempt of the delivery is held in memory, to be published or to be parked. -/
def Waiting : Prop :=
  (∃ t ∈ st.retrying, t.deliveryID = x) ∨ ∃ p ∈ st.parking, p.1.deliveryID = x

instance : Decidable (st.Waiting x) := inferInstanceAs (Decidable (_ ∨ _))

/-- The delivery was answered, is parked or is held in memory. -/
def Kept : Prop := x ∈ st.answered ∨ st.Parked x ∨ st.Waiting x

end DispatchStore

namespace Dispatcher

namespace State

variable (q : State)

/-- An attempt of the delivery is on the queue, with an id from `n` on. -/
def Queued (n : Nat) (x : String) : Prop :=
  ∃ d, q.queue.Holds d ∧ d.message.deliveryID = some x ∧ n ≤ d.id

/-- The delivery was answered, or an attempt of it is on the queue, or it is parked. -/
def Accounted (x : String) : Prop :=
  x ∈ q.queue.store.answered ∨ q.Queued 0 x ∨ q.queue.store.Parked x

/-- The delivery is accounted for or held in memory, where attempts count from id `n` on. -/
def Evident (n : Nat) (x : String) : Prop := q.queue.store.Kept x ∨ q.Queued n x

end State

/-- The step loses nothing of the delivery: it is parked if it is to be, and the process does not
end while an attempt of it is held in memory. -/
def Spares (x : String) (q : State) : Label → Prop
  | .loop (.call s f) =>
    ∀ c ∈ (q.queue.loops s).asks, c.parks = true → c.deliveryID = x → f.landed = true
  | .loop _ | .fire _ _ => True
  | .park i f _ => ∀ p ∈ q.queue.store.parking[i]?, p.1.deliveryID = x → f.landed = true
  | .crash => ¬ q.queue.store.Waiting x

instance (x : String) (q : State) : (l : Label) → Decidable (Spares x q l)
  | .loop (.call s f) =>
    inferInstanceAs (Decidable (∀ c ∈ (q.queue.loops s).asks, _ → _ → f.landed = true))
  | .loop (.publish _) | .loop (.pump _) | .loop (.receive _ _) | .loop (.reclaim _ _)
  | .loop (.next _ _) | .loop (.finish _ _) | .fire _ _ => isTrue trivial
  | .park i f _ =>
    inferInstanceAs (Decidable (∀ p ∈ q.queue.store.parking[i]?, _ → f.landed = true))
  | .crash => inferInstanceAs (Decidable (¬ _))

/-- No step of the run loses anything of the delivery. -/
def SparesAll (disp : Dispatcher) (x : String) : State → List Label → Prop
  | _, [] => True
  | q, l :: ls => Spares x q l ∧ disp.SparesAll x (disp.step q l) ls

instance decidableSparesAll (disp : Dispatcher) (x : String) :
    (q : State) → (ls : List Label) → Decidable (disp.SparesAll x q ls)
  | _, [] => isTrue trivial
  | q, l :: ls =>
    have := decidableSparesAll disp x (disp.step q l) ls
    inferInstanceAs (Decidable (_ ∧ _))

variable {disp : Dispatcher} {q q' : State} {x : String} {n : Nat}

/-! ### What the program of a task does -/

/-- The observation settles what becomes of the delivery. -/
def Settles : Obs Dispatching → Prop
  | ⟨.attempt _, r⟩ => r = .ok ()
  | ⟨.save _ _, _⟩ | ⟨.scheduleRetry _, _⟩ => True

/-- Something that was seen settles what becomes of the delivery. -/
def Settled (seen : List (Obs Dispatching)) : Prop := ∃ o ∈ seen, Settles o

private theorem toDLQ_along (hsink : disp.sink = true) (task : DeliveryTask) {reason : String}
    {stamp : LetterStamp} {seen : List (Obs Dispatching)} :
    Along (fun _ c => DispatchCall.deliveryID c = task.deliveryID) (fun _ seen => Settled seen)
      (disp.toDLQ task reason stamp) seen := by
  rw [toDLQ, if_pos hsink]
  exact Along.ask_bind_iff.mpr ⟨rfl, fun r => ⟨_, mem_cons_self, trivial⟩⟩

/-- The program of a task makes calls for its delivery only, and settles what becomes of it. -/
theorem process_along (hsink : disp.sink = true) (task : DeliveryTask) (stamp : LetterStamp) :
    Along (fun _ c => DispatchCall.deliveryID c = task.deliveryID) (fun _ seen => Settled seen)
      (disp.process (.task task) stamp) [] := by
  refine Along.bind_iff.mpr ?_
  rw [attempt]
  by_cases hsecret : task.secretRef ∉ disp.secrets
  · rw [if_pos hsecret]
    exact (toDLQ_along hsink task).mono fun _ _ h => h
  · rw [if_neg hsecret]
    refine Along.ask_bind_iff.mpr ⟨rfl, fun r => ?_⟩
    rcases r with (reason | reason) | ⟨⟩
    · exact (toDLQ_along hsink task).mono fun _ _ h => h
    · -- retryable: parked at the last attempt, else scheduled again
      dsimp only
      generalize (if task.maxAttempts ≤ 0 then disp.maxAttempts else task.maxAttempts) = cap
      split_ifs
      · exact (toDLQ_along hsink { task with attempt := task.attempt + 1 }).mono fun _ _ h => h
      · exact ⟨rfl, fun r => ⟨_, mem_cons_self, trivial⟩⟩
    · exact ⟨_, mem_cons_self, rfl⟩

/-! ### What stays evident -/

private theorem kept_handleDispatch {st : DispatchStore} (h : st.Kept x) (c : DispatchCall)
    (f : Outcome) : (handleDispatch c f st).2.Kept x := by
  have hsubset : st.answered ⊆ (handleDispatch c f st).2.answered ∧
      st.dlq ⊆ (handleDispatch c f st).2.dlq ∧ st.retrying ⊆ (handleDispatch c f st).2.retrying ∧
      st.parking ⊆ (handleDispatch c f st).2.parking := by
    cases c with
    | attempt task => cases f <;> simp [handleDispatch]
    | save tenant dl =>
      rw [handleDispatch]
      split_ifs <;> simp
    | scheduleRetry task => simp [handleDispatch]
  rcases h with h | ⟨p, hp, hx⟩ | ⟨t, ht, hx⟩ | ⟨p, hp, hx⟩
  · exact .inl (hsubset.1 h)
  · exact .inr (.inl ⟨p, hsubset.2.1 hp, hx⟩)
  · exact .inr (.inr (.inl ⟨t, hsubset.2.2.1 ht, hx⟩))
  · exact .inr (.inr (.inr ⟨p, hsubset.2.2.2 hp, hx⟩))

private theorem kept_of_settles {st : DispatchStore} {c : DispatchCall} {f : Outcome}
    (hsettles : Settles ⟨c, (handleDispatch c f st).1⟩) (hx : c.deliveryID = x)
    (hparks : c.parks = true → f.landed = true) : (handleDispatch c f st).2.Kept x := by
  cases c with
  | attempt task =>
    cases f with
    | ok => exact .inl (by simp [handleDispatch, ← hx, DispatchCall.deliveryID])
    | failed | blocked | lost => cases hsettles
  | save tenant dl =>
    refine .inr (.inl ⟨(tenant, dl), ?_, hx⟩)
    simp [handleDispatch, hparks rfl]
  | scheduleRetry task => exact .inr (.inr (.inl ⟨task, by simp [handleDispatch], hx⟩))

private theorem kept_step {w : Consumer.State Dispatching DeliveryMessage DispatchStore}
    (h : w.store.Kept x) (l : Consumer.Label Outcome DeliveryMessage LetterStamp) :
    (disp.consumer.step w l).store.Kept x := by
  rcases Consumer.step_cases (k := disp.consumer) w l with heq | hmove
  · rwa [heq]
  generalize disp.consumer.step w l = w' at hmove
  cases hmove with
  | call => exact kept_handleDispatch h _ _
  | publish | pump | receive | reclaim | next | finish => exact h

/-- What holds in every state that is reached without losing anything of the delivery. -/
structure Inv (x : String) (q : State) : Prop where
  numbered : q.queue.Numbered
  along : ∀ s d t rest, q.queue.loops s = .handling d t rest → d.message.deliveryID = some x →
    Along (fun _ c => DispatchCall.deliveryID c = x) (fun _ seen => Settled seen) t.prog t.seen
  /-- What was settled is evident without the attempt that has settled it. -/
  settled : ∀ s d t rest, q.queue.loops s = .handling d t rest → d.message.deliveryID = some x →
    Settled t.seen → q.Evident (d.id + 1) x
  published : (∃ t ∈ q.published, t.deliveryID = x) → q.Evident 0 x

namespace Inv

theorem initial (x : String) : Inv x {} where
  numbered := ⟨fun d hd => by simp [Consumer.State.Knows, Lane.live, Loop.rest, Loop.current] at hd,
    fun d y hd => by simp [Consumer.State.Knows, Lane.live, Loop.rest, Loop.current] at hd⟩
  along s d t rest h := nomatch h
  settled s d t rest h := nomatch h
  published h := by simp at h

variable (h : Inv x q)

include h

theorem evident_finish {s : Nat} {d : Delivery DeliveryMessage} {seen : List (Obs Dispatching)}
    {rest : List (Delivery DeliveryMessage)} {b : Bool}
    (hloop : q.queue.loops s = .handling d ⟨.ret b, seen⟩ rest) (hev : q.Evident n x) :
    q.queue.store.Kept x ∨ ∃ e, q.queue.Holds e ∧ e.message.deliveryID = some x ∧ n ≤ e.id ∧
      e.id ≠ d.id := by
  rcases hev with hev | ⟨e, he, hx, hn⟩
  · exact .inl hev
  by_cases hid : e.id = d.id
  · -- the attempt itself is no evidence any more, but it was settled
    obtain rfl : e = d := h.numbered.unique e d he.knows
      ⟨s, .inr (.inr (by rw [hloop]; rfl))⟩ hid
    refine (h.settled s e _ rest hloop hx (h.along s e _ rest hloop hx)).imp_right ?_
    rintro ⟨y, hy, hyx, hyid⟩
    exact ⟨y, hy, hyx, by omega, by omega⟩
  · exact .inr ⟨e, he, hx, hn, hid⟩

theorem evident_loop (l : Consumer.Label Outcome DeliveryMessage LetterStamp)
    (hq' : q'.queue = disp.consumer.step q.queue l) (hev : q.Evident n x) : q'.Evident n x := by
  -- an attempt that is taken off the queue was settled
  have hevident : q.queue.store.Kept x ∨
      ∃ e, q'.queue.Holds e ∧ e.message.deliveryID = some x ∧ n ≤ e.id := by
    by_cases hfinish : ∃ s acked d seen rest, l = .finish s acked ∧
        q.queue.loops s = .handling d ⟨.ret true, seen⟩ rest
    · obtain ⟨s, acked, d, seen, rest, rfl, hloop⟩ := hfinish
      refine (h.evident_finish hloop hev).imp_right ?_
      rintro ⟨e, he, hx, hn, hid⟩
      refine ⟨e, hq' ▸ (he.step _).resolve_right ?_, hx, hn⟩
      rintro ⟨_, _, d', _, _, heq, hloop', hid'⟩
      cases heq
      rw [hloop] at hloop'
      cases hloop'
      exact hid hid'
    · refine hev.imp_right ?_
      rintro ⟨e, he, hx, hn⟩
      refine ⟨e, hq' ▸ (he.step _).resolve_right ?_, hx, hn⟩
      rintro ⟨s, acked, d, seen, rest, heq, hloop, -⟩
      exact hfinish ⟨s, acked, d, seen, rest, heq, hloop⟩
  exact hevident.imp_left fun hkept => hq' ▸ kept_step hkept l

/-- So does a step of the shard goroutines. -/
theorem loop (hsink : disp.sink = true) {l : Consumer.Label Outcome DeliveryMessage LetterStamp}
    (hs : Spares x q (.loop l)) (hq' : q'.queue = disp.consumer.step q.queue l)
    (hpublished : (∃ t ∈ q'.published, t.deliveryID = x) →
      (∃ t ∈ q.published, t.deliveryID = x) ∨ q'.Evident 0 x) : Inv x q' := by
  refine ⟨hq' ▸ h.numbered.step l, fun s d t rest hloop hx => ?_, fun s d t rest hloop hx => ?_,
    fun hp => (hpublished hp).elim (fun hp => h.evident_loop l hq' (h.published hp)) id⟩
  · rw [hq'] at hloop
    rcases Consumer.handling_step hloop with
      hold | ⟨stamp, rfl⟩ | ⟨f, c, cont, seen, -, hold, rfl, -⟩
    · exact h.along s d t rest hold hx
    · rcases hm : d.message with task | key
      · rw [hm] at hx
        cases hx
        exact process_along hsink task stamp
      · rw [hm] at hx
        cases hx
    · exact (h.along s d _ rest hold hx).2 _
  · rw [hq'] at hloop
    rcases Consumer.handling_step hloop with
      hold | ⟨stamp, rfl⟩ | ⟨f, c, cont, seen, rfl, hold, rfl, hstore⟩
    · exact fun hsettled => h.evident_loop l hq' (h.settled s d t rest hold hx hsettled)
    · rintro ⟨o, ho, -⟩
      exact absurd ho not_mem_nil
    · rintro ⟨o, ho, hsettles⟩
      -- either this call has settled it, or one that the program has made before
      rcases mem_cons.mp ho with rfl | ho
      · have hc : c.deliveryID = x := (h.along s d _ rest hold hx).1
        refine .inl ?_
        rw [hq', hstore]
        exact kept_of_settles hsettles hc fun hparks => hs c (by rw [hold]; rfl) hparks hc
      · exact h.evident_loop _ hq' (h.settled s d _ rest hold hx ⟨o, ho, hsettles⟩)

theorem publish (hsink : disp.sink = true) (m : DeliveryMessage) : Inv x (disp.publish q m) := by
  refine h.loop hsink (l := .publish m) trivial rfl fun hp => ?_
  cases m with
  | malformed => exact .inl hp
  | task t =>
    obtain ⟨t', ht', hx⟩ := hp
    rcases mem_append.mp ht' with ht' | ht'
    · exact .inl ⟨t', ht', hx⟩
    · rw [mem_singleton.mp ht'] at hx
      refine .inr (.inr ⟨⟨q.queue.seq, .task t⟩, ⟨disp.consumer.shardOf (.task t), .inr ?_⟩,
        congrArg some hx, Nat.zero_le _⟩)
      simp [Dispatcher.publish, Consumer.step, Consumer.State.setLane, Lane.publish]

theorem setStore {st : DispatchStore} {N : Nat}
    (hN : ∀ s d, (q.queue.loops s).current = some d → d.id < N)
    (hev : ∀ n ≤ N, q.Evident n x → (q.setStore st).Evident n x) : Inv x (q.setStore st) where
  numbered := h.numbered.of_knows rfl fun _ hd => hd
  along := h.along
  settled s d t rest hloop hx hsettled := by
    have hloop' : q.queue.loops s = .handling d t rest := hloop
    exact hev _ (hN s d (by rw [hloop']; rfl)) (h.settled s d t rest hloop' hx hsettled)
  published hp := hev _ (Nat.zero_le _) (h.published hp)

theorem current_lt (s : Nat) (d : Delivery DeliveryMessage)
    (hd : (q.queue.loops s).current = some d) : d.id < q.queue.seq :=
  h.numbered.lt_seq d ⟨s, .inr (.inr hd)⟩

/-- A retry that fires keeps the invariant. -/
theorem fire (hsink : disp.sink = true) (i : Nat) (f : Outcome) :
    Inv x (disp.step q (.fire i f)) := by
  unfold step
  dsimp only
  split
  · exact h
  · next task htask =>
    -- a retry is still held in memory, unless it is the one that is published
    have hmem : ∀ t ∈ q.queue.store.retrying, t ∈ q.queue.store.retrying.eraseIdx i ∨ t = task := by
      intro t ht
      obtain ⟨j, hj⟩ := getElem?_of_mem ht
      by_cases hji : j = i
      · rw [hji, htask] at hj
        exact .inr (Option.some.inj hj).symm
      · exact .inl (mem_eraseIdx_iff_getElem?.mpr ⟨j, hji, hj⟩)
    split_ifs with hlanded
    · -- publishing it first makes no difference
      refine (h.publish hsink (.task task)).setStore (N := q.queue.seq) h.current_lt ?_
      rintro n hn ((hev | hev | ⟨t, ht, hx⟩ | ⟨p, hp, hx⟩) | hev)
      · exact .inl (.inl hev)
      · exact .inl (.inr (.inl hev))
      · rcases hmem t ht with ht | rfl
        · exact .inl (.inr (.inr (.inl ⟨t, ht, hx⟩)))
        · refine .inr ⟨⟨q.queue.seq, .task t⟩, ⟨disp.consumer.shardOf (.task t), .inr ?_⟩,
            congrArg some hx, hn⟩
          simp [State.setStore, Dispatcher.publish, Consumer.step, Consumer.State.setLane,
            Lane.publish]
      · exact .inl (.inr (.inr (.inr ⟨p, mem_append_left _ hp, hx⟩)))
      · exact .inr hev
    · refine h.setStore h.current_lt ?_
      rintro n - ((hev | hev | ⟨t, ht, hx⟩ | ⟨p, hp, hx⟩) | hev)
      · exact .inl (.inl hev)
      · exact .inl (.inr (.inl hev))
      · rcases hmem t ht with ht | rfl
        · exact .inl (.inr (.inr (.inl ⟨t, ht, hx⟩)))
        · -- it could not be published, and is going to be parked
          obtain ⟨reason, hreason⟩ : ∃ reason, f.error = some reason := by
            cases f <;> simp_all [Outcome.landed, Outcome.error]
          refine .inl (.inr (.inr (.inr ⟨(t, "republish_failed: " ++ reason),
            mem_append_right _ ?_, hx⟩)))
          rw [hreason]
          exact mem_singleton_self _
      · exact .inl (.inr (.inr (.inr ⟨p, mem_append_left _ hp, hx⟩)))
      · exact .inr hev

theorem park (hsink : disp.sink = true) {i : Nat} {f : Outcome} {stamp : LetterStamp}
    (hs : Spares x q (.park i f stamp)) : Inv x (disp.step q (.park i f stamp)) := by
  unfold step
  dsimp only
  split
  · exact h
  · next task reason hp =>
    refine h.setStore h.current_lt ?_
    rintro n - ((hev | ⟨y, hy, hx⟩ | hev | ⟨y, hy, hx⟩) | hev)
    · exact .inl (.inl hev)
    · refine .inl (.inr (.inl ⟨y, ?_, hx⟩))
      dsimp only [State.setStore]
      split_ifs
      · exact mem_append_left _ hy
      · exact hy
    · exact .inl (.inr (.inr (.inl hev)))
    · obtain ⟨j, hj⟩ := getElem?_of_mem hy
      by_cases hji : j = i
      · -- the evidence was the one that is parked now
        rw [hji, hp] at hj
        cases hj
        have hlanded := hs _ hp hx
        refine .inl (.inr (.inl ⟨(task.tenant, task.deadLetter reason stamp), ?_, hx⟩))
        simp [State.setStore, hsink, hlanded]
      · exact .inl (.inr (.inr (.inr
          ⟨y, mem_eraseIdx_iff_getElem?.mpr ⟨j, hji, hj⟩, hx⟩)))
    · exact .inr hev

theorem crash (hs : Spares x q .crash) : Inv x (disp.step q .crash) where
  numbered := by
    refine h.numbered.of_knows rfl ?_
    -- the goroutines start anew, and only the lanes know deliveries
    rintro d ⟨s, hd | hd | hd⟩
    · exact ⟨s, .inl (Lane.live_receive hd)⟩
    · exact absurd hd not_mem_nil
    · cases hd
  along s d t rest hloop := nomatch hloop
  settled s d t rest hloop := nomatch hloop
  published hp := by
    rcases h.published hp with (hev | hev | hev) | ⟨d, ⟨s, hd⟩, hx⟩
    · exact .inl (.inl hev)
    · exact .inl (.inr (.inl hev))
    · exact absurd hev hs
    · exact .inr ⟨d, ⟨s, hd⟩, hx⟩

theorem step (hsink : disp.sink = true) {l : Label} (hs : Spares x q l) :
    Inv x (disp.step q l) := by
  cases l with
  | loop l =>
    cases l with
    | publish m => exact h.publish hsink m
    | pump | receive | reclaim | next | call | finish => exact h.loop hsink hs rfl .inl
  | fire i f => exact h.fire hsink i f
  | park i f stamp => exact h.park hsink hs
  | crash => exact h.crash hs

theorem run (hsink : disp.sink = true) {ls : List Label} (hs : disp.SparesAll x q ls) :
    Inv x (disp.run q ls) := by
  induction ls generalizing q with
  | nil => exact h
  | cons l ls ih => exact ih (h.step hsink hs.1) hs.2

end Inv

/-- **A delivery is accounted for** in every state that is reached, whatever fails and wherever the
process ends, as long as no attempt of it is held in memory then, none was when the process ended
and it could be parked if it was to be. -/
theorem delivery_accounted (disp : Dispatcher) (hsink : disp.sink = true) {ls : List Label}
    {task : DeliveryTask} (htask : task ∈ (disp.run {} ls).published)
    (hs : disp.SparesAll task.deliveryID {} ls)
    (hmemory : ¬ (disp.run {} ls).queue.store.Waiting task.deliveryID) :
    (disp.run {} ls).Accounted task.deliveryID := by
  rcases ((Inv.initial _).run hsink hs).published ⟨task, htask, rfl⟩ with (hev | hev | hev) | hev
  · exact .inl hev
  · exact .inr (.inr hev)
  · exact absurd hev hmemory
  · exact .inr (.inl hev)

/-! ### A retry that is held in memory -/

/-- A delivery of which one attempt is made. The endpoint does not answer, the next attempt is held
in memory, and the task is acknowledged. -/
def firstAttempt (task : DeliveryTask) : List Label :=
  [.loop (.publish (.task task)), .loop (.pump 0), .loop (.receive 0 ⟨"l1", ⟨1⟩⟩),
    .loop (.call 0 (.failed "timeout")), .loop (.call 0 .ok), .loop (.finish 0 true)]

/-- The next attempt is published and made. It fails as well, and the delivery is parked. -/
def secondAttempt : List Label :=
  [.fire 0 .ok, .loop (.pump 0), .loop (.receive 0 ⟨"l2", ⟨2⟩⟩),
    .loop (.call 0 (.failed "timeout")), .loop (.call 0 .ok), .loop (.finish 0 true), .crash]

/-- A delivery that is parked after two attempts is accounted for, also after a crash. -/
theorem delivery_accounted_parked :
    let disp : Dispatcher := { secrets := [""], shards := 1 }
    let task : DeliveryTask := { tenant := { id := "acme" }, deliveryID := "d1", maxAttempts := 2 }
    let q := disp.run {} (firstAttempt task ++ secondAttempt)
    (q.queue.store.dlq.map fun p => (p.2.id, p.2.attempts)) = [("l2", 2)] ∧ q.Accounted "d1" := by
  intro disp task q
  have htask : task ∈ q.published := by decide +kernel
  exact ⟨by decide +kernel,
    delivery_accounted disp rfl htask (by decide +kernel) (by decide +kernel)⟩

/-- A delivery whose next attempt is held in memory is not accounted for, and if the process ends
then there is nothing left of it. -/
theorem delivery_lost :
    let disp : Dispatcher := { secrets := [""], shards := 1 }
    let task : DeliveryTask := { tenant := { id := "acme" }, deliveryID := "d1", maxAttempts := 2 }
    let q := disp.run {} (firstAttempt task)
    let q' := disp.run {} (firstAttempt task ++ [.crash])
    task ∈ q.published ∧ ¬ q.Accounted "d1" ∧ ¬ q'.Accounted "d1" ∧ 
      ¬ q'.queue.store.Waiting "d1" := by
  intro disp task q q'
  have hempty : ∀ q : State, q.queue.store.answered = [] → q.queue.store.dlq = [] →
      (∀ s, (q.queue.lanes s).pending = [] ∧ (q.queue.lanes s).buffered = []) →
      ¬ q.Accounted "d1" := by
    rintro q hanswered hdlq hlanes (h | ⟨d, ⟨s, h⟩, -⟩ | ⟨p, h, -⟩)
    · simp [hanswered] at h
    · simp [hlanes] at h
    · simp [hdlq] at h
  refine ⟨by decide +kernel, hempty q rfl rfl fun s => ?_, hempty q' rfl rfl fun s => ?_,
    by decide +kernel⟩
  · cases s <;> exact ⟨rfl, rfl⟩
  · cases s <;> exact ⟨rfl, rfl⟩

end Dispatcher

end Letopis
