import Letopis.Delivery.Dispatcher
import Letopis.Service.Rules

/-!
# Passes of a delivery

A delivery whose attempts all fail goes around in passes. A pass begins when the delivery is put on
the queue, by the rule that has fired or by the redelivery of its dead letter, and ends when it is
parked. The task that a rule puts on the queue carries the rule's number of attempts and its
timeout. The dead letter carries neither, and so the task it is redelivered by does not: from the
second pass on it is the dispatcher's own settings that count (`passes_exact_iff`).
-/

namespace Letopis

open Interleaving List

/-! ### The settings of the dispatcher -/

/-- A second, in nanoseconds. -/
def second : Int := 1000000000

/-- `defaultTimeout`. -/
def defaultTimeout : Int := 5 * second

/-- `defaultMaxAttempts`. -/
def defaultMaxAttempts : Int := 5

/-- The settings that attempts depend on. -/
structure DispatchConfig where
  /-- How long an attempt may take, in nanoseconds. -/
  timeout : Int := 0
  maxAttempts : Int := 0
  timeout_lt : timeout < 2 ^ 63 := by decide

namespace DispatchConfig

/-- What is not set has its default. -/
def withDefaults (cfg : DispatchConfig) : DispatchConfig where
  timeout := if cfg.timeout ≤ 0 then defaultTimeout else cfg.timeout
  maxAttempts := if cfg.maxAttempts ≤ 0 then defaultMaxAttempts else cfg.maxAttempts
  timeout_lt := by
    have := cfg.timeout_lt
    split_ifs
    · decide
    · exact this

/-- The timeout of an attempt. The multiplication is one of `int64`. -/
def timeoutOf (cfg : DispatchConfig) (task : DeliveryTask) : Int :=
  if 0 < task.timeoutMS then (task.timeoutMS * 1000000).bmod (2 ^ 64)
  else cfg.withDefaults.timeout

/-- The dispatcher with these settings. -/
def dispatcher (cfg : DispatchConfig) (secrets : List String) (sink : Bool) (shards : Nat) :
    Dispatcher where
  secrets := secrets
  maxAttempts := cfg.withDefaults.maxAttempts
  sink := sink
  shards := shards

end DispatchConfig

/-! ### The tasks -/

/-- What is handed over when a rule has fired. -/
structure DeliveryRequest where
  collection : String
  ruleID : String
  ruleName : String := ""
  webhook : Webhook

/-- `Publish`: the task of a rule that has fired, with the id and the body it gets. -/
def DeliveryRequest.task (req : DeliveryRequest) (t : Tenant) (deliveryID body : String) :
    DeliveryTask where
  tenant := t
  deliveryID := deliveryID
  ruleID := req.ruleID
  ruleName := req.ruleName
  collection := req.collection
  url := req.webhook.url
  secretRef := req.webhook.secretRef
  timeoutMS := req.webhook.timeoutMS
  maxAttempts := req.webhook.maxAttempts
  attempt := 0
  body := body

/-! ### A pass -/

/-- What comes from outside into a pass in which every attempt fails: the reason for each failure,
and the id and the time of a dead letter. -/
structure Failures where
  reason : DeliveryTask → String
  stamp : DeliveryTask → LetterStamp

/-- Every attempt fails in a way that can be tried again, and nothing else does. -/
def Failures.oracle (fails : Failures) (_ : List (Obs Dispatching)) : DispatchCall → Outcome
  | .attempt task => .failed (fails.reason task)
  | .save _ _ | .scheduleRetry _ => .ok

/-- The tasks that were attempted, in order. -/
def attempted (seen : List (Obs Dispatching)) : List DeliveryTask :=
  seen.reverse.filterMap fun o =>
    match o.1 with
    | .attempt task => some task
    | _ => none

namespace Dispatcher

variable (disp : Dispatcher) (fails : Failures)

/-- One turn: the task that the dispatcher is handed, to the end. -/
def turn (task : DeliveryTask) : Interleaving.Outcome Dispatching Unit DispatchStore :=
  (disp.attempt task (fails.stamp task)).exec handleDispatch fails.oracle [] {}

/-- A pass from a task on: the attempts, and the dead letter it ends with, if any. A retry that was
scheduled is the next task. `none` if `fuel` turns do not do. -/
def pass : Nat → DeliveryTask → Option (List DeliveryTask × Option DeadLetter)
  | 0, _ => none
  | fuel + 1, task =>
    let o := disp.turn fails task
    match o.store.retrying with
    | [] => some (attempted o.seen, o.store.dlq.head?.map Prod.snd)
    | next :: _ => (pass fuel next).map fun p => (attempted o.seen ++ p.1, p.2)

/-- The pass number `n`, counted from the one that begins with the task. Each one after it begins
with the redelivery of the dead letter of the one before. -/
def nthPass (fuel : Nat) : Nat → DeliveryTask → Option (List DeliveryTask × Option DeadLetter)
  | 0, task => disp.pass fails fuel task
  | n + 1, task => do
    let p ← disp.pass fails fuel task
    let dl ← p.2
    nthPass fuel n (dl.requeued task.tenant)

/-- How many attempts are made for a task. -/
def cap (task : DeliveryTask) : Int :=
  if task.maxAttempts ≤ 0 then disp.maxAttempts else task.maxAttempts

private theorem turn_of_known {task : DeliveryTask} (hsecret : task.secretRef ∈ disp.secrets) :
    attempted (disp.turn fails task).seen = [task] ∧
      if disp.cap task ≤ task.attempt + 1 then
        (disp.turn fails task).store.retrying = [] ∧
          ((disp.turn fails task).store.dlq.head?.map Prod.snd) =
            if disp.sink then some ({ task with attempt := task.attempt + 1 }.deadLetter
              (fails.reason task) (fails.stamp task)) else none
      else (disp.turn fails task).store.retrying = [{ task with attempt := task.attempt + 1 }] := by
  have hturn : disp.turn fails task =
      (if disp.cap task ≤ task.attempt + 1 then
        disp.toDLQ { task with attempt := task.attempt + 1 } (fails.reason task) (fails.stamp task)
      else Dispatching.ask (.scheduleRetry { task with attempt := task.attempt + 1 })).exec
        handleDispatch fails.oracle [⟨.attempt task, .error (.failed (fails.reason task))⟩] {} := by
    rw [turn, Dispatcher.attempt, if_neg (not_not.mpr hsecret)]
    rfl
  rw [hturn]
  split_ifs with hcap hsink
  · rw [toDLQ, if_pos hsink]
    exact ⟨rfl, rfl, rfl⟩
  · rw [toDLQ, if_neg hsink]
    exact ⟨rfl, rfl, rfl⟩
  · exact ⟨rfl, rfl⟩

private theorem turn_of_unknown {task : DeliveryTask} (hsecret : task.secretRef ∉ disp.secrets) :
    attempted (disp.turn fails task).seen = [] ∧ (disp.turn fails task).store.retrying = [] := by
  rw [turn, Dispatcher.attempt, if_pos hsecret, toDLQ]
  split_ifs
  · exact ⟨rfl, rfl⟩
  · exact ⟨rfl, rfl⟩

end Dispatcher

/-- What is left of a task that is parked and redelivered. -/
def DeliveryTask.bare (task : DeliveryTask) : DeliveryTask :=
  { task with ruleName := "", timeoutMS := 0, maxAttempts := 0, attempt := 0 }

namespace Dispatcher

variable (disp : Dispatcher) (fails : Failures)

/-- What a pass comes to that begins with a task: attempts up to the cap, which differ in their
number only, and a dead letter, if there is somewhere to put it. -/
structure PassOf (task : DeliveryTask) (p : List DeliveryTask × Option DeadLetter) : Prop where
  length : (p.1.length : Int) = disp.cap task - task.attempt
  same : ∀ a ∈ p.1, ∃ k, a = { task with attempt := k }
  dropped : disp.sink = false → p.2 = none
  /-- What is parked is redelivered without the settings of the rule. -/
  parked : disp.sink = true → ∃ dl, p.2 = some dl ∧ dl.attempts = disp.cap task ∧
    dl.requeued task.tenant = task.bare

variable {task : DeliveryTask} {fuel : Nat} {p : List DeliveryTask × Option DeadLetter}

/-- **A pass.** -/
theorem exists_pass (hsecret : task.secretRef ∈ disp.secrets)
    (hattempt : task.attempt < disp.cap task) :
    ∃ p, disp.PassOf task p ∧
      ∀ fuel : Nat, disp.cap task - task.attempt ≤ fuel → disp.pass fails fuel task = some p := by
  generalize hn : (disp.cap task - task.attempt).toNat = n
  induction n generalizing task with
  | zero => omega
  | succ n ih =>
    obtain ⟨hseen, hturn⟩ := disp.turn_of_known fails hsecret
    by_cases hcap : disp.cap task ≤ task.attempt + 1
    · rw [if_pos hcap] at hturn
      obtain ⟨hretry, hdlq⟩ := hturn
      refine ⟨([task], (disp.turn fails task).store.dlq.head?.map Prod.snd), ⟨?_, ?_, ?_, ?_⟩, ?_⟩
      · rw [length_singleton]
        omega
      · exact forall_mem_singleton.mpr ⟨task.attempt, rfl⟩
      · intro hsink
        rw [hdlq, hsink]
        rfl
      · intro hsink
        rw [hdlq, hsink]
        refine ⟨_, rfl, ?_, rfl⟩
        simp only [DeliveryTask.deadLetter]
        omega
      · intro fuel hfuel
        obtain ⟨fuel, rfl⟩ : ∃ k, fuel = k + 1 := ⟨fuel - 1, by omega⟩
        simp only [pass, hretry, hseen]
    · -- the retry is the same task with one attempt more behind it
      rw [if_neg hcap] at hturn
      let next : DeliveryTask := { task with attempt := task.attempt + 1 }
      have hcap' : disp.cap next = disp.cap task := rfl
      have hnext : next.attempt = task.attempt + 1 := rfl
      have hsecret' : next.secretRef ∈ disp.secrets := hsecret
      obtain ⟨p, hp, hpass⟩ := ih hsecret' (by omega) (by omega)
      have hlen := hp.length
      refine ⟨(task :: p.1, p.2), ⟨?_, ?_, hp.dropped, hp.parked⟩, fun fuel hfuel => ?_⟩
      · rw [length_cons]
        push_cast
        omega
      · exact forall_mem_cons.mpr ⟨⟨task.attempt, rfl⟩, hp.same⟩
      · obtain ⟨fuel, rfl⟩ : ∃ k, fuel = k + 1 := ⟨fuel - 1, by omega⟩
        have htail := hpass fuel (by push_cast at hfuel; omega)
        simp only [pass, hturn, hseen]
        rw [htail]
        rfl

private theorem mem_secrets_of_pass (h : disp.pass fails fuel task = some p) (hne : p.1 ≠ []) :
    task.secretRef ∈ disp.secrets := by
  by_contra hunknown
  obtain ⟨hseen, hretry⟩ := disp.turn_of_unknown fails hunknown
  cases fuel with
  | zero => cases h
  | succ fuel =>
    simp only [pass, hretry, hseen, Option.some.injEq] at h
    exact hne (by rw [← h])

private theorem pass_mono {fuel' : Nat} (hle : fuel ≤ fuel')
    (h : disp.pass fails fuel task = some p) : disp.pass fails fuel' task = some p := by
  induction fuel generalizing fuel' task p with
  | zero => cases h
  | succ fuel ih =>
    obtain ⟨fuel', rfl⟩ : ∃ k, fuel' = k + 1 := ⟨fuel' - 1, by omega⟩
    rw [pass] at h ⊢
    rcases hretry : (disp.turn fails task).store.retrying with _ | ⟨next, rest⟩
    · simpa [hretry] using h
    · simp only [hretry] at h ⊢
      obtain ⟨q, hq, rfl⟩ := Option.map_eq_some_iff.mp h
      rw [ih (by omega) hq]
      rfl

private theorem passOf_of_pass (hsecret : task.secretRef ∈ disp.secrets)
    (hattempt : task.attempt < disp.cap task) (h : disp.pass fails fuel task = some p) :
    disp.PassOf task p := by
  obtain ⟨q, hq, hpass⟩ := disp.exists_pass fails hsecret hattempt
  have hp := disp.pass_mono fails (Nat.le_max_left fuel (disp.cap task - task.attempt).toNat) h
  rw [hpass _ (by omega)] at hp
  exact Option.some.inj hp ▸ hq

private theorem pass_bare_of_nthPass (hsink : disp.sink = true)
    (hsecret : task.secretRef ∈ disp.secrets)
    (hattempt : task.attempt < disp.cap task) (h : disp.nthPass fails fuel 1 task = some p) :
    disp.pass fails fuel task.bare = some p := by
  rw [nthPass] at h
  obtain ⟨q, hq, h⟩ := Option.bind_eq_some_iff.mp h
  obtain ⟨dl, hdl, h⟩ := Option.bind_eq_some_iff.mp h
  obtain ⟨dl', hdl', -, hrequeued⟩ := (disp.passOf_of_pass fails hsecret hattempt hq).parked hsink
  rwa [← hrequeued, Option.some.inj (hdl'.symm.trans hdl)]

private theorem nthPass_succ (hsink : disp.sink = true) (hsecret : task.secretRef ∈ disp.secrets)
    (hattempt : task.attempt < disp.cap task) (hmax : 0 < disp.maxAttempts)
    (hfuel : disp.cap task - task.attempt ≤ fuel) (hfuel' : disp.maxAttempts ≤ fuel) (n : Nat) :
    disp.nthPass fails fuel (n + 1) task = disp.pass fails fuel task.bare := by
  induction n generalizing task with
  | zero =>
    obtain ⟨p, hp, hpass⟩ := disp.exists_pass fails hsecret hattempt
    obtain ⟨dl, hdl, -, hrequeued⟩ := hp.parked hsink
    simp [nthPass, hpass fuel hfuel, hdl, hrequeued]
  | succ n ih =>
    obtain ⟨p, hp, hpass⟩ := disp.exists_pass fails hsecret hattempt
    obtain ⟨dl, hdl, -, hrequeued⟩ := hp.parked hsink
    have hbare : disp.nthPass fails fuel (n + 1) task.bare = disp.pass fails fuel task.bare :=
      ih (hsecret : task.bare.secretRef ∈ disp.secrets) hmax
        (by simpa [cap, DeliveryTask.bare] using hfuel')
    rw [nthPass, hpass fuel hfuel]
    simp [hdl, hrequeued, hbare]

end Dispatcher

/-! ### The settings of the rule -/

namespace DispatchConfig

variable (cfg : DispatchConfig)

/-- The timeout that a webhook asks for; without one of its own it leaves that to the dispatcher. -/
def asked (w : Webhook) : Int :=
  if 0 < w.timeoutMS then w.timeoutMS * 1000000 else cfg.withDefaults.timeout

/-- The pass has made as many attempts as the webhook asks for, each with the timeout that it asks
for, and the delivery is parked with their number. -/
def Exact (w : Webhook) (p : List DeliveryTask × Option DeadLetter) : Prop :=
  (p.1.length : Int) = w.maxAttempts ∧ (∀ a ∈ p.1, cfg.timeoutOf a = cfg.asked w) ∧
    ∃ dl, p.2 = some dl ∧ dl.attempts = w.maxAttempts

private theorem withDefaults_pos :
    0 < cfg.withDefaults.maxAttempts ∧ 0 < cfg.withDefaults.timeout := by
  simp only [withDefaults]
  constructor
  · split_ifs with h
    · decide
    · omega
  · split_ifs with h
    · decide
    · omega

private theorem timeoutOf_bare (task : DeliveryTask) :
    cfg.timeoutOf task.bare = cfg.withDefaults.timeout :=
  if_neg (lt_irrefl 0)

private theorem asked_eq {w : Webhook}
    (h : 0 < w.timeoutMS → w.timeoutMS * 1000000 = cfg.withDefaults.timeout) :
    cfg.asked w = cfg.withDefaults.timeout := by
  rw [asked]
  split_ifs with hpos
  · exact h hpos
  · rfl

/-- The product does not overflow if it is the timeout of the dispatcher, which is a duration. -/
theorem timeoutOf_eq {task : DeliveryTask}
    (h : 0 < task.timeoutMS → task.timeoutMS * 1000000 = cfg.withDefaults.timeout) :
    cfg.timeoutOf task = cfg.withDefaults.timeout := by
  rw [timeoutOf]
  split_ifs with hpos
  · have hlt := cfg.withDefaults.timeout_lt
    have htimeout := cfg.withDefaults_pos.2
    rw [h hpos]
    exact Int.bmod_eq_of_le (by omega) (by omega)
  · rfl

private theorem exact_iff {disp : Dispatcher} {task : DeliveryTask} {w : Webhook}
    {p : List DeliveryTask × Option DeadLetter} (hp : disp.PassOf task p)
    (hstart : task.attempt = 0) (hcap : 0 < disp.cap task) :
    cfg.Exact w p ↔ disp.sink = true ∧ disp.cap task = w.maxAttempts ∧
      cfg.timeoutOf task = cfg.asked w := by
  have hlen := hp.length
  have htimeout : (∀ a ∈ p.1, cfg.timeoutOf a = cfg.asked w) ↔
      cfg.timeoutOf task = cfg.asked w := by
    have hsame : ∀ a ∈ p.1, cfg.timeoutOf a = cfg.timeoutOf task := by
      intro a ha
      obtain ⟨k, rfl⟩ := hp.same a ha
      rfl
    constructor
    · intro h
      obtain ⟨a, ha⟩ : ∃ a, a ∈ p.1 := exists_mem_of_length_pos (by omega)
      rw [← hsame a ha, h a ha]
    · exact fun h a ha => (hsame a ha).trans h
  rw [Exact, htimeout, hlen, hstart, Int.sub_zero]
  constructor
  · rintro ⟨hM, hT, dl, hdl, -⟩
    refine ⟨?_, hM, hT⟩
    by_contra hsink
    rw [hp.dropped (Bool.eq_false_iff.mpr hsink)] at hdl
    cases hdl
  · rintro ⟨hsink, hM, hT⟩
    obtain ⟨dl, hdl, hattempts, -⟩ := hp.parked hsink
    exact ⟨hM, hT, dl, hdl, hattempts.trans hM⟩

end DispatchConfig

/-- **Passes.** For a webhook with a number of attempts: every pass of a delivery whose attempts all
fail makes that number of attempts, with the timeout of the webhook, and parks the delivery, if and
only if the secret is known, there is somewhere to park it, and the webhook asks for no other number
of attempts and no other timeout than the dispatcher has anyway. -/
theorem passes_exact_iff (cfg : DispatchConfig) (secrets : List String) (sink : Bool) (shards : Nat)
    (req : DeliveryRequest) (t : Tenant) (deliveryID body : String) (fails : Failures)
    (hattempts : 0 < req.webhook.maxAttempts) :
    (∀ n, ∃ fuel p, (cfg.dispatcher secrets sink shards).nthPass fails fuel n
        (req.task t deliveryID body) = some p ∧ cfg.Exact req.webhook p) ↔
      sink = true ∧ req.webhook.secretRef ∈ secrets ∧
        req.webhook.maxAttempts = cfg.withDefaults.maxAttempts ∧
        (0 < req.webhook.timeoutMS →
          req.webhook.timeoutMS * 1000000 = cfg.withDefaults.timeout) := by
  set disp := cfg.dispatcher secrets sink shards
  set task := req.task t deliveryID body
  have hmax : 0 < cfg.withDefaults.maxAttempts := cfg.withDefaults_pos.1
  have hcap : disp.cap task = req.webhook.maxAttempts := if_neg (not_le.mpr hattempts)
  have hcap' : disp.cap task.bare = cfg.withDefaults.maxAttempts := if_pos le_rfl
  have hstart : task.attempt < disp.cap task := by rwa [hcap]
  have hstart' : task.bare.attempt < disp.cap task.bare := by rwa [hcap']
  constructor
  · intro h
    obtain ⟨fuel, p, hpass, hexact⟩ := h 0
    have hlen := hexact.1
    have hsecret : req.webhook.secretRef ∈ secrets := by
      refine disp.mem_secrets_of_pass fails hpass fun hnil => ?_
      rw [hnil, length_nil] at hlen
      omega
    have hfirst := disp.passOf_of_pass fails hsecret hstart hpass
    obtain ⟨hsink, -, -⟩ := (cfg.exact_iff hfirst rfl (by omega)).mp hexact
    obtain ⟨fuel₁, q, hpass₁, hexact₁⟩ := h 1
    have hbare := disp.pass_bare_of_nthPass fails hsink hsecret hstart hpass₁
    have hsecond := disp.passOf_of_pass fails hsecret hstart' hbare
    obtain ⟨-, hM, hT⟩ := (cfg.exact_iff hsecond rfl (by omega)).mp hexact₁
    refine ⟨hsink, hsecret, by rw [← hM, hcap'], fun hpos => ?_⟩
    rw [cfg.timeoutOf_bare, DispatchConfig.asked, if_pos hpos] at hT
    exact hT.symm
  · rintro ⟨hsink, hsecret, hM, hT⟩ n
    have hzero : task.attempt = 0 := rfl
    have hasked : cfg.asked req.webhook = cfg.withDefaults.timeout := cfg.asked_eq hT
    cases n with
    | zero =>
      obtain ⟨p, hp, hpass⟩ := disp.exists_pass fails hsecret hstart
      refine ⟨(disp.cap task).toNat, p, hpass _ ?_, (cfg.exact_iff hp rfl (by omega)).mpr ?_⟩
      · omega
      · exact ⟨hsink, hcap, by rw [hasked, cfg.timeoutOf_eq hT]⟩
    | succ n =>
      have hsecret' : task.bare.secretRef ∈ disp.secrets := hsecret
      obtain ⟨q, hq, hbare⟩ := disp.exists_pass fails hsecret' hstart'
      have hzero' : task.bare.attempt = 0 := rfl
      have hfuel : disp.maxAttempts = cfg.withDefaults.maxAttempts := rfl
      refine ⟨(disp.cap task).toNat, q, ?_, (cfg.exact_iff hq rfl (by omega)).mpr ?_⟩
      · rw [disp.nthPass_succ fails hsink hsecret hstart (by omega) (by omega) (by omega)]
        exact hbare _ (by omega)
      · exact ⟨hsink, by rw [hcap', hM], by rw [hasked, cfg.timeoutOf_bare]⟩

/-- A webhook with the default number of attempts and the default timeout. -/
theorem passes_exact_iff_default :
    let req : DeliveryRequest :=
      { collection := "deals", ruleID := "rule_1",
        webhook :=
          { url := "https://crm", timeoutMS := 5000, maxAttempts := 5, secretRef := "s1" } }
    ∀ n, ∃ fuel p, (({} : DispatchConfig).dispatcher ["s1"] true 4).nthPass
        ⟨fun _ => "503", fun _ => ⟨"dlq_1", .zero⟩⟩ fuel n (req.task ⟨"acme", "", ""⟩ "d1" "") =
          some p ∧ ({} : DispatchConfig).Exact req.webhook p := by
  intro req
  exact (passes_exact_iff {} ["s1"] true 4 req ⟨"acme", "", ""⟩ "d1" ""
    ⟨fun _ => "503", fun _ => ⟨"dlq_1", .zero⟩⟩ (by decide)).mpr (by decide)

/-- A webhook with two attempts of one second each. The redelivery of its dead letter makes five
attempts of five seconds each. -/
theorem redelivery_forgets_settings :
    let req : DeliveryRequest :=
      { collection := "deals", ruleID := "rule_1",
        webhook :=
          { url := "https://crm", timeoutMS := 1000, maxAttempts := 2, secretRef := "s1" } }
    let cfg : DispatchConfig := {}
    let summary (n : Nat) := ((cfg.dispatcher ["s1"] true 4).nthPass
      ⟨fun _ => "503", fun _ => ⟨"dlq_1", .zero⟩⟩ 5 n (req.task ⟨"acme", "", ""⟩ "d1" "")).map
        fun p => (p.1.map cfg.timeoutOf, p.2.map DeadLetter.attempts)
    summary 0 = some ([second, second], some 2) ∧
      summary 1 = some (List.replicate 5 (5 * second), some 5) := by
  decide +kernel

end Letopis
