import Letopis.Interleaving.Trace
import Letopis.Service.Async

/-!
# Accepts under one event id

Any number of requests accept writes at the same time, their calls interleaved in any way and met
by any failures.

A request that finds its event id claimed is answered with the ticket of the request that holds
the claim, which may not have published its task yet, and may still fail to. If the claims that
are found are those of published tasks, every ticket given out belongs to a published task. If in
addition the idempotency store is reachable, no claim is won only because it was neither won nor
found three times, and no task is published by a call that reports a failure, then at most one task
is published under an event id.
-/

namespace Letopis

open Interleaving List Function

/-! ### What a request does -/

/-- The `GET`s that have found nothing. -/
def misses (seen : List (Obs Accepting)) : Nat :=
  seen.countP fun o => match o with
    | ⟨.get _, .ok none⟩ => true
    | _ => false

/-- The request has published its task or given up its claim. -/
def Over (seen : List (Obs Accepting)) : Prop :=
  (∃ queue task, (⟨.publish queue task, .ok ()⟩ : Obs Accepting) ∈ seen) ∨
    ∃ key r, (⟨.del key, r⟩ : Obs Accepting) ∈ seen

/-- The idempotency store could not be reached. -/
def Degraded (seen : List (Obs Accepting)) : Prop :=
  (∃ key rec e, (⟨.setNX key rec, .error e⟩ : Obs Accepting) ∈ seen) ∨
    ∃ key e, (⟨.get key, .error e⟩ : Obs Accepting) ∈ seen

namespace Accept

variable (a : Accept)

/-- The key that the request claims. -/
def claim : Option String := a.principal.bind a.key

/-- The record that it leaves. -/
def record : IdempotencyRecord := ⟨a.ticketID, 202⟩

/-- The request has won its claim. -/
def Claimed (seen : List (Obs Accepting)) : Prop :=
  ∃ key, a.claim = some key ∧ (⟨.setNX key a.record, .ok true⟩ : Obs Accepting) ∈ seen

/-- The claim is won, or counts as won. -/
def Won (seen : List (Obs Accepting)) : Prop :=
  a.Claimed seen ∨ reserveMaxTries ≤ misses seen

/-- The request may publish its task. -/
def Entitled (seen : List (Obs Accepting)) : Prop :=
  a.claim = none ∨ Degraded seen ∨ a.Won seen

/-- The calls a request makes. -/
inductive Does (seen : List (Obs Accepting)) : AcceptCall → Prop
  | allow {mode} : Does seen (.allow mode)
  | setNX {key} (claims : a.claim = some key) : Does seen (.setNX key a.record)
  | get {key} : Does seen (.get key)
  | createTicket {t} : Does seen (.createTicket t)
  | publish {t} (principal : a.principal = some t) (first : ¬ Over seen)
      (entitled : a.Entitled seen) : Does seen (.publish a.queue (a.task t))
  | del {key} (claims : a.claim = some key) (first : ¬ Over seen) (won : a.Won seen) :
      Does seen (.del key)

/-- What a request ends with: the ticket of a task it has published, or of a claim it has found. -/
def Ends : Except AcceptErr IngestResult → List (Obs Accepting) → Prop
  | .error _, _ => True
  | .ok res, seen =>
    (∃ queue task, (⟨.publish queue task, .ok ()⟩ : Obs Accepting) ∈ seen ∧
      task.ticketID = res.ticket) ∨
    ∃ key rec, (⟨.get key, .ok (some rec)⟩ : Obs Accepting) ∈ seen ∧ rec.ticketID = res.ticket

end Accept

section

variable {seen : List (Obs Accepting)} {o : Obs Accepting}

private theorem not_over_cons (h : ¬ Over seen)
    (hp : ∀ queue task, o ≠ ⟨.publish queue task, .ok ()⟩)
    (hd : ∀ key r, o ≠ ⟨.del key, r⟩) : ¬ Over (o :: seen) := by
  rintro (⟨queue, task, hmem⟩ | ⟨key, r, hmem⟩)
  · exact h (.inl ⟨queue, task, (mem_cons.mp hmem).resolve_left (hp queue task).symm⟩)
  · exact h (.inr ⟨key, r, (mem_cons.mp hmem).resolve_left (hd key r).symm⟩)

private theorem misses_le_cons (seen : List (Obs Accepting)) (o : Obs Accepting) :
    misses seen ≤ misses (o :: seen) :=
  (sublist_cons_self o seen).countP_le

theorem Degraded.cons (h : Degraded seen) : Degraded (o :: seen) :=
  h.imp (fun ⟨key, rec, e, hmem⟩ => ⟨key, rec, e, mem_cons_of_mem _ hmem⟩)
    fun ⟨key, e, hmem⟩ => ⟨key, e, mem_cons_of_mem _ hmem⟩

theorem Accept.Claimed.cons {a : Accept} (h : a.Claimed seen) : a.Claimed (o :: seen) := by
  obtain ⟨key, hkey, hmem⟩ := h
  exact ⟨key, hkey, mem_cons_of_mem _ hmem⟩

end

namespace Accept

variable {a : Accept} {t : Tenant} {seen : List (Obs Accepting)}

/-- The outcome of a claim: the store was not reached, the claim of another request was found, or
the claim is won. -/
theorem reserve_along {key : String} (hkey : a.claim = some key) {n : Nat}
    (hfirst : ¬ Over seen) (hn : misses seen + n = reserveMaxTries) :
    Along a.Does (fun r seen' => ¬ Over seen' ∧
      match r with
      | .error _ => Degraded seen'
      | .ok none => a.Won seen'
      | .ok (some rec) => ∃ key, (⟨.get key, .ok (some rec)⟩ : Obs Accepting) ∈ seen')
      (reserve key a.record n) seen := by
  induction n generalizing seen with
  | zero => exact ⟨hfirst, .inr (by omega)⟩
  | succ n ih =>
    refine Along.ask_bind_iff.mpr ⟨.setNX hkey, fun r => ?_⟩
    have hfirst' := not_over_cons (o := ⟨.setNX key a.record, r⟩) hfirst (by simp) (by simp)
    rcases r with e | (_ | _)
    · exact ⟨hfirst', .inl ⟨key, a.record, e, mem_cons_self⟩⟩
    · refine Along.ask_bind_iff.mpr ⟨.get, fun r => ?_⟩
      have hfirst'' := not_over_cons (o := ⟨.get key, r⟩) hfirst' (by simp) (by simp)
      rcases r with e | (_ | rec)
      · exact ⟨hfirst'', .inr ⟨key, e, mem_cons_self⟩⟩
      · -- the claim has expired between the two calls: a try is used up
        refine ih hfirst'' ?_
        have hmiss : misses (⟨.get key, .ok none⟩ :: ⟨.setNX key a.record, .ok false⟩ :: seen) =
            misses seen + 1 := by simp [misses]
        rw [hmiss]
        omega
      · exact ⟨hfirst'', key, mem_cons_self⟩
    · exact ⟨hfirst', .inl ⟨key, hkey, mem_cons_self⟩⟩

theorem Won.cons (h : a.Won seen) {o : Obs Accepting} : a.Won (o :: seen) :=
  h.imp (fun h => h.cons) fun h => h.trans (misses_le_cons seen o)

theorem Entitled.cons (h : a.Entitled seen) {o : Obs Accepting} : a.Entitled (o :: seen) :=
  h.imp_right fun h => h.imp (fun h => h.cons) fun h => h.cons

private theorem publish_along (hprincipal : a.principal = some t) (hfirst : ¬ Over seen)
    (hentitled : a.Entitled seen) :
    Along a.Does (fun r seen' => match r with
      | .ok () => ∃ queue task, (⟨.publish queue task, .ok ()⟩ : Obs Accepting) ∈ seen' ∧
          task.ticketID = a.ticketID
      | .error _ => ¬ Over seen' ∧ (a.Won seen → a.Won seen')) (a.publish t) seen := by
  refine Along.ask_bind_iff.mpr ⟨.publish hprincipal hfirst hentitled, fun r => ?_⟩
  cases r with
  | ok u => exact ⟨_, _, mem_cons_self, rfl⟩
  | error e => exact ⟨not_over_cons hfirst (by simp) (by simp), fun h => h.cons⟩

private theorem openAndPublish_along (hprincipal : a.principal = some t) (hfirst : ¬ Over seen)
    (hentitled : a.Entitled seen) :
    Along a.Does (fun r seen' => match r with
      | .ok () => ∃ queue task, (⟨.publish queue task, .ok ()⟩ : Obs Accepting) ∈ seen' ∧
          task.ticketID = a.ticketID
      | .error _ => ¬ Over seen' ∧ (a.Won seen → a.Won seen')) (a.openAndPublish t) seen := by
  rw [openAndPublish]
  split_ifs
  · refine Along.ask_bind_iff.mpr ⟨.createTicket, fun r => ?_⟩
    have hfirst' := not_over_cons (o := ⟨.createTicket _, r⟩) hfirst (by simp) (by simp)
    cases r with
    | error e => exact ⟨hfirst', fun h => h.cons⟩
    | ok u =>
      refine (publish_along hprincipal hfirst' hentitled.cons).mono fun r seen' h => ?_
      rcases r with e | _
      · exact ⟨h.1, fun hwon => h.2 hwon.cons⟩
      · exact h
  · exact publish_along hprincipal hfirst hentitled

private theorem deliver_along (hprincipal : a.principal = some t) (hfirst : ¬ Over seen)
    (hentitled : a.Entitled seen) {held : Option String}
    (hheld : ∀ key, held = some key → a.claim = some key ∧ a.Won seen) :
    Along a.Does Ends (a.deliver t held) seen := by
  refine Along.bind_iff.mpr ((openAndPublish_along hprincipal hfirst hentitled).mono ?_)
  rintro (e | _) seen' h
  · cases held with
    | none => trivial
    | some key =>
      obtain ⟨hkey, hwon⟩ := hheld key rfl
      exact Along.ask_bind_iff.mpr ⟨.del hkey h.1 (h.2 hwon), fun _ => trivial⟩
  · exact .inl h

private theorem claimAndDeliver_along (hprincipal : a.principal = some t) (hfirst : ¬ Over seen)
    (hmiss : misses seen = 0) : Along a.Does Ends (a.claimAndDeliver t) seen := by
  have hclaim : a.claim = a.key t := by rw [claim, hprincipal, Option.bind_some]
  rw [claimAndDeliver]
  cases hkey : a.key t with
  | none => exact deliver_along hprincipal hfirst (.inl (hclaim.trans hkey)) (by simp)
  | some key =>
    rw [hkey] at hclaim
    refine Along.bind_iff.mpr ((reserve_along hclaim hfirst (by omega)).mono ?_)
    rintro (e | (_ | rec)) seen' ⟨hfirst', h⟩
    · exact deliver_along hprincipal hfirst' (.inr (.inl h)) (by simp)
    · refine deliver_along hprincipal hfirst' (.inr (.inr h)) fun key' hkey' => ?_
      cases hkey'
      exact ⟨hclaim, h⟩
    · obtain ⟨key, hmem⟩ := h
      exact .inr ⟨key, rec, hmem, rfl⟩

/-- **What a request does**, whatever its calls are answered. -/
theorem along (a : Accept) : Along a.Does Ends a.enqueue [] := by
  have hnil : ¬ Over [] := by
    rintro (⟨_, _, h⟩ | ⟨_, _, h⟩) <;> exact not_mem_nil h
  rw [enqueue]
  cases hprincipal : a.principal with
  | none => trivial
  | some t =>
    dsimp only
    split_ifs
    · refine Along.ask_bind_iff.mpr ⟨.allow, fun r => ?_⟩
      cases r with
      | some retryAfter => trivial
      | none => exact claimAndDeliver_along hprincipal (not_over_cons hnil (by simp) (by simp)) rfl
    · exact claimAndDeliver_along hprincipal hnil rfl

end Accept

/-! ### What is published -/

namespace Broker

variable {s : Broker} {c : AcceptCall} {f : Mishap}

private theorem published_enqueue (s : Broker) (queue : QueueName) (task : QueuedTask) :
    (s.enqueue queue task).published.Perm (task :: s.published) := by
  cases queue with
  | durable =>
    simp only [published, enqueue, append_assoc]
    exact perm_middle
  | fast =>
    simp only [published, enqueue, ← append_assoc]
    exact perm_append_singleton _ _

private theorem published_expire (s : Broker) (c : AcceptCall) :
    (s.expire c).published = s.published := by
  cases c <;> rfl

private theorem published_serve (s : Broker) (c : AcceptCall) :
    (s.serve c).2.published = s.published ∨ ∃ queue task, c = .publish queue task ∧
      (s.serve c).2.published.Perm (task :: s.published) := by
  cases c with
  | publish queue task => exact .inr ⟨queue, task, rfl, published_enqueue s queue task⟩
  | setNX key rec =>
    simp only [serve]
    split_ifs <;> exact .inl rfl
  | _ => exact .inl rfl

private theorem published_subset_handle :
    s.published ⊆ (handleAccept c f s).2.published := by
  have hserve : ∀ s : Broker, s.published ⊆ (s.serve c).2.published := by
    intro s task htask
    rcases s.published_serve c with heq | ⟨queue, task', -, hperm⟩
    · rwa [heq]
    · exact hperm.mem_iff.mpr (mem_cons_of_mem _ htask)
  cases f with
  | none => exact hserve s
  | failed => exact List.Subset.refl _
  | lost => exact hserve s
  | expired =>
    intro task htask
    exact hserve _ (published_expire s c ▸ htask)
  | refused retryAfter => cases c <;> exact List.Subset.refl _

private theorem publish_ok {queue : QueueName} {task : QueuedTask}
    (h : (handleAccept (.publish queue task) f s).1 = .ok ()) :
    task ∈ (handleAccept (.publish queue task) f s).2.published := by
  have hserve : task ∈ (s.enqueue queue task).published :=
    (published_enqueue s queue task).mem_iff.mpr mem_cons_self
  cases f with
  | none => exact hserve
  | expired => exact hserve
  | _ => cases h

private theorem get_ok {key : String} {rec : IdempotencyRecord}
    (h : (handleAccept (.get key) f s).1 = .ok (some rec)) :
    f = .none ∧ s.keys key = some rec := by
  cases f with
  | none => exact ⟨rfl, Except.ok.inj h⟩
  | expired => simp [handleAccept, serve, expire] at h
  | _ => cases h

end Broker

/-- The call is no `GET` that finds the claim of a task that is not published. -/
def answersPublished (s : Broker) : AcceptCall → Mishap → Bool
  | .get key, .none => (s.keys key).all fun rec =>
      s.published.any fun task => task.ticketID = rec.ticketID
  | _, _ => true

/-- Every confirmed publication and every claim found stand for a published task. -/
def ticketLedger (ι : Type) : Ledger ι Accepting Broker where
  inv _ := True
  fact _ o s :=
    (∀ queue task, o = ⟨.publish queue task, .ok ()⟩ → task ∈ s.published) ∧
    ∀ key rec, o = ⟨.get key, .ok (some rec)⟩ → ∃ task ∈ s.published, task.ticketID = rec.ticketID

private theorem ticketLedger_sound {ι : Type} {P : ι → List (Obs Accepting) → AcceptCall → Prop} :
    (ticketLedger ι).Sound handleAccept P
      (fun _ _ call f s => answersPublished s call f = true) := by
  intro i seen c f s _ hanswers _ _
  refine ⟨trivial, ⟨fun queue task ho => ?_, fun key rec ho => ?_⟩, fun j o ho => ⟨?_, ?_⟩⟩
  · obtain ⟨rfl, hr⟩ := Sigma.mk.inj_iff.mp ho
    exact Broker.publish_ok (eq_of_heq hr)
  · obtain ⟨rfl, hr⟩ := Sigma.mk.inj_iff.mp ho
    obtain ⟨rfl, hkey⟩ := Broker.get_ok (eq_of_heq hr)
    simp only [answersPublished, hkey, Option.all_some, any_eq_true, decide_eq_true_eq]
      at hanswers
    obtain ⟨task, htask, hticket⟩ := hanswers
    exact ⟨task, Broker.published_subset_handle htask, hticket⟩
  · intro queue task heq
    exact Broker.published_subset_handle (ho.1 queue task heq)
  · intro key rec heq
    obtain ⟨task, htask, hticket⟩ := ho.2 key rec heq
    exact ⟨task, Broker.published_subset_handle htask, hticket⟩

/-! ### What is published once -/

/-- The key of a task, if it has an event id. -/
def QueuedTask.idempKey (task : QueuedTask) : Option String :=
  (AsyncIngester.idempKey {} task.command).map (idempotencyKey task.tenant)

/-- The idempotency store answers and no key expires; a claim is found before the tries run out;
a publication that fails has not landed. -/
def keepsUnique (seen : List (Obs Accepting)) (s : Broker) : AcceptCall → Mishap → Bool
  | .setNX _ _, f | .del _, f => f = .none
  | .get key, f => f = .none && (misses seen + 1 < reserveMaxTries || (s.keys key).isSome)
  | .publish _ _, f => f ≠ .lost
  | .allow _, _ | .createTicket _, _ => true

/-- At most one task is published under a key, and none under a free one. -/
structure Broker.Unique (s : Broker) : Prop where
  once : ∀ key, (s.published.filter fun task => task.idempKey = some key).length ≤ 1
  held : ∀ task ∈ s.published, ∀ key, task.idempKey = some key → (s.keys key).isSome = true

/-- A request holds the claim it has won until it publishes its task or gives the claim up, and
nothing is published under the key until then. -/
structure Accept.Holds (a : Accept) (seen : List (Obs Accepting)) (s : Broker) : Prop where
  reached : ¬ Degraded seen
  tries : misses seen < reserveMaxTries
  claim : ¬ Over seen → ∀ key, a.claim = some key →
    (⟨.setNX key a.record, .ok true⟩ : Obs Accepting) ∈ seen →
    s.keys key = some a.record ∧ ∀ task ∈ s.published, task.idempKey ≠ some key

namespace Accept.Holds

variable {a b : Accept} {seen : List (Obs Accepting)} {s s' : Broker} {o : Obs Accepting}

theorem congr (h : a.Holds seen s)
    (hs : ∀ key, a.claim = some key → s.keys key = some a.record →
      (∀ task ∈ s.published, task.idempKey ≠ some key) →
      s'.keys key = some a.record ∧ ∀ task ∈ s'.published, task.idempKey ≠ some key) :
    a.Holds seen s' := by
  refine ⟨h.reached, h.tries, fun hover key hkey hclaimed => ?_⟩
  obtain ⟨hheld, hnone⟩ := h.claim hover key hkey hclaimed
  exact hs key hkey hheld hnone

theorem over_cons (h : Over seen) : Over (o :: seen) :=
  h.imp (fun ⟨queue, task, hmem⟩ => ⟨queue, task, mem_cons_of_mem _ hmem⟩)
    fun ⟨key, r, hmem⟩ => ⟨key, r, mem_cons_of_mem _ hmem⟩

theorem not_degraded_cons (h : ¬ Degraded seen)
    (hset : ∀ key rec e, o ≠ ⟨.setNX key rec, .error e⟩)
    (hget : ∀ key e, o ≠ ⟨.get key, .error e⟩) : ¬ Degraded (o :: seen) := by
  rintro (⟨key, rec, e, hmem⟩ | ⟨key, e, hmem⟩)
  · exact h (.inl ⟨key, rec, e, (mem_cons.mp hmem).resolve_left (hset key rec e).symm⟩)
  · exact h (.inr ⟨key, e, (mem_cons.mp hmem).resolve_left (hget key e).symm⟩)

theorem cons (h : a.Holds seen s) (hset : ∀ key rec e, o ≠ ⟨.setNX key rec, .error e⟩)
    (hget : ∀ key e, o ≠ ⟨.get key, .error e⟩) (htries : misses (o :: seen) < reserveMaxTries)
    (hclaim : ∀ key, a.claim = some key → o = ⟨.setNX key a.record, .ok true⟩ →
      s.keys key = some a.record ∧ ∀ task ∈ s.published, task.idempKey ≠ some key) :
    a.Holds (o :: seen) s := by
  refine ⟨not_degraded_cons h.reached hset hget, htries, fun hover key hkey hclaimed => ?_⟩
  rcases mem_cons.mp hclaimed with heq | hold
  · exact hclaim key hkey heq.symm
  · exact h.claim (fun hover' => hover (over_cons hover')) key hkey hold

theorem last (h : a.Holds seen s) (hover : Over (o :: seen))
    (hset : ∀ key rec e, o ≠ ⟨.setNX key rec, .error e⟩) (hget : ∀ key e, o ≠ ⟨.get key, .error e⟩)
    (htries : misses (o :: seen) < reserveMaxTries) : a.Holds (o :: seen) s' :=
  ⟨not_degraded_cons h.reached hset hget, htries, fun hnot => absurd hover hnot⟩

theorem of_won (h : a.Holds seen s) (hfirst : ¬ Over seen) (hwon : a.Won seen) :
    ∃ key, a.claim = some key ∧ s.keys key = some a.record ∧
      ∀ task ∈ s.published, task.idempKey ≠ some key := by
  rcases hwon with ⟨key, hkey, hmem⟩ | hmiss
  · exact ⟨key, hkey, h.claim hfirst key hkey hmem⟩
  · exact absurd h.tries (not_lt.mpr hmiss)

end Accept.Holds

namespace Broker.Unique

variable {s s' : Broker} {key : String}

theorem congr (h : s.Unique) (hpub : s'.published = s.published)
    (hkeys : ∀ task ∈ s.published, ∀ key, task.idempKey = some key →
      (s.keys key).isSome = true → (s'.keys key).isSome = true) : s'.Unique := by
  refine ⟨fun key => by rw [hpub]; exact h.once key, fun task htask key hkey => ?_⟩
  rw [hpub] at htask
  exact hkeys task htask key hkey (h.held task htask key hkey)

theorem publish (h : s.Unique) {task : QueuedTask}
    (hpub : s'.published.Perm (task :: s.published)) (hkeys : s'.keys = s.keys)
    (hnew : ∀ key, task.idempKey = some key →
      (s.keys key).isSome = true ∧ ∀ x ∈ s.published, x.idempKey ≠ some key) : s'.Unique := by
  refine ⟨fun key => ?_, fun x hx key hkey => ?_⟩
  · rw [(hpub.filter _).length_eq, filter_cons]
    split_ifs with htask
    · have hnil : (s.published.filter fun x => x.idempKey = some key) = [] := by
        refine filter_eq_nil_iff.mpr fun x hx => ?_
        simpa using (hnew key (by simpa using htask)).2 x hx
      rw [hnil]
      exact le_rfl
    · exact h.once key
  · rw [hkeys]
    rcases mem_cons.mp (hpub.mem_iff.mp hx) with rfl | hx
    · exact (hnew key hkey).1
    · exact h.held x hx key hkey

end Broker.Unique

/-- What requests know of the claims. -/
def claimAccount {ι : Type} (reqs : ι → Accept) : Account ι Accepting Broker :=
  ⟨Broker.Unique, fun i seen s => (reqs i).Holds seen s⟩

section

variable {ι : Type} {reqs : ι → Accept} {s : Broker} {i : ι} {seen : List (Obs Accepting)}

private theorem idempKey_task {a : Accept} (hidemp : a.ing.idemp = true) {t : Tenant}
    (ht : a.principal = some t) : (a.task t).idempKey = a.claim := by
  rw [Accept.claim, ht, Option.bind_some, Accept.key, QueuedTask.idempKey, Accept.task]
  simp [AsyncIngester.idempKey, hidemp]

private theorem claim_ne (hinj : Injective fun i => (reqs i).ticketID) {j : ι} (hij : j ≠ i)
    {key key' : String} (hi : s.keys key = some (reqs i).record)
    (hj : s.keys key' = some (reqs j).record) : key' ≠ key := by
  rintro rfl
  rw [hi, Option.some.injEq, Accept.record, Accept.record, IdempotencyRecord.mk.injEq] at hj
  exact hij (hinj hj.1).symm

private theorem setNX_sound (hinv : s.Unique) (hrel : (reqs i).Holds seen s) {key : String}
    (hkey : (reqs i).claim = some key) :
    let r := s.serve (.setNX key (reqs i).record)
    r.2.Unique ∧ (reqs i).Holds (⟨.setNX key (reqs i).record, r.1⟩ :: seen) r.2 ∧
      ∀ j, ∀ seen', (reqs j).Holds seen' s → (reqs j).Holds seen' r.2 := by
  intro r
  have htries : ∀ o, misses (⟨.setNX key (reqs i).record, o⟩ :: seen) < reserveMaxTries :=
    fun o => by simpa [misses] using hrel.tries
  by_cases hheld : (s.keys key).isSome = true
  · have hr : r = (.ok false, s) := if_pos hheld
    rw [hr]
    exact ⟨hinv, hrel.cons (by simp) (by simp) (htries _) (by simp), fun _ _ h => h⟩
  · have hr : r = (.ok true,
        { s with keys := update s.keys key (some (reqs i).record) }) := if_neg hheld
    -- a key that is held is another one
    have hne : ∀ {key' rec}, s.keys key' = some rec → key' ≠ key := by
      rintro key' rec hsome rfl
      exact hheld (by rw [hsome]; rfl)
    rw [hr]
    have hothers : ∀ j, ∀ seen', (reqs j).Holds seen' s → (reqs j).Holds seen'
        { s with keys := update s.keys key (some (reqs i).record) } :=
      fun j seen' h => h.congr fun key' _ hsome hnone =>
        ⟨(update_of_ne (hne hsome) _ _).trans hsome, hnone⟩
    refine ⟨hinv.congr rfl fun task _ key' _ hsome => ?_,
      (hothers i seen hrel).cons (by simp) (by simp) (htries _) fun key' hkey' _ => ?_, hothers⟩
    · obtain ⟨rec, hrec⟩ := Option.isSome_iff_exists.mp hsome
      exact (congrArg Option.isSome (update_of_ne (hne hrec) _ _)).trans hsome
    · obtain rfl : key' = key := Option.some.inj (hkey'.symm.trans hkey)
      exact ⟨update_self .., fun task htask hk => hheld (hinv.held task htask key' hk)⟩

private theorem del_sound (hinj : Injective fun i => (reqs i).ticketID) (hinv : s.Unique)
    (hrel : (reqs i).Holds seen s) {key : String} (hkey : (reqs i).claim = some key)
    (hfirst : ¬ Over seen) (hwon : (reqs i).Won seen) :
    let r := s.serve (.del key)
    r.2.Unique ∧ (reqs i).Holds (⟨.del key, r.1⟩ :: seen) r.2 ∧
      ∀ j, j ≠ i → ∀ seen', (reqs j).Holds seen' s → (reqs j).Holds seen' r.2 := by
  intro r
  -- nothing was published under the claim, so no task loses its key
  obtain ⟨key', hkey', hheld, hnone⟩ := hrel.of_won hfirst hwon
  obtain rfl : key' = key := Option.some.inj (hkey'.symm.trans hkey)
  refine ⟨hinv.congr rfl fun task htask key hk hsome => ?_,
    hrel.last (.inr ⟨_, _, mem_cons_self⟩) (by simp) (by simp)
      (by simpa [misses] using hrel.tries), fun j hj seen' h => h.congr fun key _ hsome hfree => ?_⟩
  · have hne : key ≠ key' := fun heq => hnone task htask (heq ▸ hk)
    exact (congrArg Option.isSome (update_of_ne hne _ _)).trans hsome
  · exact ⟨(update_of_ne (claim_ne hinj hj hheld hsome) _ _).trans hsome, hfree⟩

private theorem publish_sound (hinj : Injective fun i => (reqs i).ticketID)
    (hidemp : (reqs i).ing.idemp = true) (hinv : s.Unique)
    (hrel : (reqs i).Holds seen s) {t : Tenant} (ht : (reqs i).principal = some t)
    (hfirst : ¬ Over seen) (hentitled : (reqs i).Entitled seen) :
    let r := s.serve (.publish (reqs i).queue ((reqs i).task t))
    r.2.Unique ∧ (reqs i).Holds (⟨.publish (reqs i).queue ((reqs i).task t), r.1⟩ :: seen) r.2 ∧
      ∀ j, j ≠ i → ∀ seen', (reqs j).Holds seen' s → (reqs j).Holds seen' r.2 := by
  intro r
  have hperm : r.2.published.Perm ((reqs i).task t :: s.published) :=
    Broker.published_enqueue s (reqs i).queue ((reqs i).task t)
  have hkeys : r.2.keys = s.keys := by
    change (s.enqueue _ _).keys = s.keys
    cases (reqs i).queue <;> rfl
  -- the task has no key, or one whose claim the request holds
  have hown : ∀ key, ((reqs i).task t).idempKey = some key →
      s.keys key = some (reqs i).record ∧ ∀ task ∈ s.published, task.idempKey ≠ some key := by
    intro key hkey
    rw [idempKey_task hidemp ht] at hkey
    rcases hentitled with hnone | hdegraded | hwon
    · rw [hnone] at hkey
      cases hkey
    · exact absurd hdegraded hrel.reached
    · obtain ⟨key', hkey', hheld⟩ := hrel.of_won hfirst hwon
      obtain rfl : key' = key := Option.some.inj (hkey'.symm.trans hkey)
      exact hheld
  refine ⟨hinv.publish hperm hkeys fun key hkey => ?_,
    hrel.last (.inl ⟨_, _, mem_cons_self⟩) (by simp) (by simp)
      (by simpa [misses] using hrel.tries), fun j hj seen' h => h.congr fun key _ hsome hfree => ?_⟩
  · obtain ⟨hheld, hfree⟩ := hown key hkey
    exact ⟨by rw [hheld]; rfl, hfree⟩
  · refine ⟨hkeys ▸ hsome, fun task htask hk => ?_⟩
    rcases mem_cons.mp (hperm.mem_iff.mp htask) with rfl | hold
    · exact claim_ne hinj hj (hown key hk).1 hsome rfl
    · exact hfree task hold hk

private theorem idle_sound {s' : Broker} (hkeys : s'.keys = s.keys)
    (hpub : s'.published = s.published)
    (hinv : s.Unique) (hrel : (reqs i).Holds seen s) {o : Obs Accepting}
    (hset : ∀ key rec r, o ≠ ⟨.setNX key rec, r⟩) (hget : ∀ key e, o ≠ ⟨.get key, .error e⟩)
    (htries : misses (o :: seen) < reserveMaxTries) :
    s'.Unique ∧ (reqs i).Holds (o :: seen) s' ∧
      ∀ j, j ≠ i → ∀ seen', (reqs j).Holds seen' s → (reqs j).Holds seen' s' := by
  have hothers : ∀ j, ∀ seen', (reqs j).Holds seen' s → (reqs j).Holds seen' s' :=
    fun j seen' h => h.congr fun key _ hsome hfree => ⟨hkeys ▸ hsome, hpub ▸ hfree⟩
  refine ⟨hinv.congr hpub fun task _ key _ hsome => by rwa [hkeys], ?_, fun j _ => hothers j⟩
  exact (hothers i seen hrel).cons (fun key rec e => hset key rec _) hget htries
    fun key _ ho => absurd ho (hset key _ _)

private theorem claimAccount_sound (hinj : Injective fun i => (reqs i).ticketID)
    (hidemp : ∀ i, (reqs i).ing.idemp = true) :
    (claimAccount reqs).Sound handleAccept (fun i => (reqs i).Does)
      (fun _ seen call f s => keepsUnique seen s call f = true) := by
  intro i seen c f s hdoes hunique hinv hrel
  cases hdoes with
  | @allow mode =>
    have hstore : (handleAccept (.allow mode) f s).2 = s := by cases f <;> rfl
    exact idle_sound (by rw [hstore]) (by rw [hstore]) hinv hrel (by simp) (by simp)
      (by simpa [misses] using hrel.tries)
  | @createTicket ticket =>
    have hkeys : (handleAccept (.createTicket ticket) f s).2.keys = s.keys := by cases f <;> rfl
    have hpub : (handleAccept (.createTicket ticket) f s).2.published = s.published := by
      cases f <;> rfl
    exact idle_sound hkeys hpub hinv hrel (by simp) (by simp) (by simpa [misses] using hrel.tries)
  | setNX hkey =>
    obtain rfl : f = .none := by simpa [keepsUnique] using hunique
    obtain ⟨h₁, h₂, h₃⟩ := setNX_sound hinv hrel hkey
    exact ⟨h₁, h₂, fun j _ => h₃ j⟩
  | @get key =>
    simp only [keepsUnique, Bool.and_eq_true, decide_eq_true_eq, Bool.or_eq_true] at hunique
    obtain ⟨rfl, hfound⟩ := hunique
    -- a claim that is gone counts as a miss, and the tries are not used up
    have htries : misses (⟨.get key, .ok (s.keys key)⟩ :: seen) < reserveMaxTries := by
      cases hkey : s.keys key with
      | none => simpa [misses, hkey] using hfound
      | some rec => simpa [misses] using hrel.tries
    exact idle_sound rfl rfl hinv hrel (by simp) (by simp [handleAccept, Broker.serve]) htries
  | @publish t ht hfirst hentitled =>
    have hfailed := idle_sound
      (o := ⟨.publish (reqs i).queue ((reqs i).task t), .error .unavailable⟩) rfl rfl hinv hrel
      (by simp) (by simp) (by simpa [misses] using hrel.tries)
    have hlanded := publish_sound hinj (hidemp i) hinv hrel ht hfirst hentitled
    cases f with
    | none => exact hlanded
    | expired => exact hlanded
    | failed => exact hfailed
    | refused retryAfter => exact hfailed
    | lost => simp [keepsUnique] at hunique
  | del hkey hfirst hwon =>
    obtain rfl : f = .none := by simpa [keepsUnique] using hunique
    exact del_sound hinj hinv hrel hkey hfirst hwon

end

/-! ### Any number of requests -/

/-- **Tickets are backed, tasks are published once.** Whatever requests there are, however their
calls interleave and whatever becomes of these:

* if no request finds the claim of a task that is not published, every ticket that a request is
  answered with belongs to a published task;
* if the idempotency store is reachable and no key expires, no claim runs out of tries and no
  failed publication has landed, at most one task is published under an event id. -/
theorem accepts_backed_once {ι : Type} [DecidableEq ι] (reqs : ι → Accept) (s : Broker)
    (sched : List (ι × Mishap)) :
    let start := Config.initial s fun i => (reqs i).enqueue
    let cfg := start.run handleAccept sched
    (start.Meets handleAccept (fun _ _ call f s => answersPublished s call f = true) sched →
      ∀ i res, cfg.Returned i (.ok res) →
        ∃ task ∈ cfg.store.published, task.ticketID = res.ticket) ∧
    (Injective (fun i => (reqs i).ticketID) → (∀ i, (reqs i).ing.idemp = true) →
      s.published = [] →
      start.Meets handleAccept (fun _ seen call f s => keepsUnique seen s call f = true) sched →
      ∀ key, (cfg.store.published.filter fun task => task.idempKey = some key).length ≤ 1) := by
  intro start cfg
  have hfollows : start.Follows (fun i => (reqs i).Does) (fun _ => Accept.Ends) :=
    fun i => (reqs i).along
  constructor
  · intro hmeets i res hres
    have hledger := (Ledger.holds_initial (L := ticketLedger ι) trivial _).run ticketLedger_sound
      hfollows hmeets
    -- the ticket is the request's own, or that of the claim it has found
    rcases (hfollows.run sched).post hres with ⟨queue, task, hmem, hticket⟩ | ⟨key, rec, hmem, hrec⟩
    · exact ⟨task, (hledger.fact i _ hmem).1 queue task rfl, hticket⟩
    · obtain ⟨task, htask, hticket⟩ := (hledger.fact i _ hmem).2 key rec rfl
      exact ⟨task, htask, hticket.trans hrec⟩
  · intro hinj hidemp hnone hmeets
    have hstart : (claimAccount reqs).Holds start := by
      refine ⟨⟨fun key => ?_, fun task htask => ?_⟩, fun i => ?_⟩
      · simp [start, Config.initial, hnone]
      · rw [show start.store.published = [] from hnone] at htask
        exact absurd htask not_mem_nil
      · refine ⟨?_, Nat.succ_pos 2, fun _ key _ hmem => absurd hmem not_mem_nil⟩
        rintro (⟨_, _, _, h⟩ | ⟨_, _, h⟩) <;> exact not_mem_nil h
    exact (hstart.run (claimAccount_sound hinj hidemp) hfollows hmeets).inv.once

/-- A request under an event id, with tickets and deduplication but no limiter. -/
def Accept.under (ticketID eventID : String) : Accept :=
  { ing := { limiter := false }, principal := some { id := "acme" }, ticketID,
    cmd := { collection := "deals", entityID := "42", eventID, state := [("won", .bool true)] } }

/-- Two deliveries of one write. The first one publishes its task, the second one finds its claim
and is answered with its ticket. -/
theorem accepts_backed_once_replayed :
    let reqs : Bool → Accept := fun i => .under (if i then "t-1" else "t-2") "k1"
    let sched := [true, true, true, false, false].map (·, Mishap.none)
    let cfg := (Config.initial {} fun i => (reqs i).enqueue).run handleAccept sched
    cfg.result false = some (.ok { entityID := "42", version := 0, async := true, ticket := "t-1",
                                   deduplicated := true }) ∧
      (∃ task ∈ cfg.store.published, task.ticketID = "t-1") ∧
      ∀ key, (cfg.store.published.filter fun task => task.idempKey = some key).length ≤ 1 := by
  intro reqs sched cfg
  obtain ⟨hbacked, honce⟩ := accepts_backed_once reqs {} sched
  have hresult : cfg.result false = some (.ok
      { entityID := "42", version := 0, async := true, ticket := "t-1",
        deduplicated := true }) := by decide
  refine ⟨hresult, hbacked (by decide) false _ (Config.returned_iff.mpr hresult), ?_⟩
  have hinj : ∀ i j, (reqs i).ticketID = (reqs j).ticketID → i = j := by decide
  exact honce (fun i j => hinj i j) (fun _ => rfl) rfl (by decide)

/-- A request is answered with the ticket of another one that then fails to publish its task: no
task has that ticket. And a request whose three tries to claim the event id meet three claims that
are each given up before it can look them up publishes its task beside that of the next claim. -/
theorem accepts_unbacked_or_twice :
    (let reqs : Bool → Accept := fun i => .under (if i then "t-1" else "t-2") "k1"
     let cfg := (Config.initial {} fun i => (reqs i).enqueue).run handleAccept
       [(true, .none), (false, .none), (false, .none), (true, .none), (true, .failed),
        (true, .none)]
     cfg.Finished ∧
       cfg.result false = some (.ok { entityID := "42", version := 0, async := true,
                                      ticket := "t-1", deduplicated := true }) ∧
       cfg.store.published = []) ∧
    (let reqs : Fin 5 → Accept := fun i => .under (toString i) "k1"
     let cfg := (Config.initial {} fun i => (reqs i).enqueue).run handleAccept
       [(1, .none), (0, .none), (1, .failed), (1, .none), (0, .none),
        (2, .none), (0, .none), (2, .failed), (2, .none), (0, .none),
        (3, .none), (0, .none), (3, .failed), (3, .none), (0, .none),
        (0, .none), (0, .none), (4, .none), (4, .none), (4, .none)]
     cfg.store.published.map QueuedTask.ticketID = ["0", "4"]) := by
  constructor
  · exact ⟨Config.finished_iff.mpr (by decide), by decide, by decide⟩
  · decide +kernel

end Letopis
