import Letopis.Runs.Rising
import Letopis.Service.Config
import Letopis.Worker.Worker

/-!
# Tasks that cannot be applied

A worker marks the ticket of a task as processing, applies the task, and then settles it: the ticket
becomes stored, or failed if the error is one that no retry can cure, and the delivery is
acknowledged. After any other error the ticket stays in processing and the delivery on the queue, to
be reclaimed.

Which errors are final is decided by a short list of kinds: a diff that cannot be applied, a
rejection by a plugin, an unknown kind of write. A conflict with the expected version is not on it,
and neither is a collection whose settings cannot be resolved.
-/

namespace Letopis

open Interleaving Function

/-! ### Settings -/

/-- Where a worker resolves the settings of collections. -/
structure Resolution where
  resolver : ConfigResolver := {}
  tenant : Tenant
  /-- The settings of the tenant, and the caches. -/
  settings : ConfigStore := {}
  now : Nat := 0

namespace Resolution

variable (res : Resolution)

/-- The settings of the collection can be resolved, or are created. -/
def resolves (c : String) : Bool :=
  match ((res.resolver.ensureCollection res.tenant c).eval
    (fun call => handleConfig call ⟨.none, res.now⟩) res.settings).1 with
  | .ok _ => true
  | .error _ => false

private theorem eval_createParts {c : String} (hc : logicalName c = true) (m : Moment)
    (hm : m.fault = .none) (parts : List PhysicalPart) (s : ConfigStore) :
    ((createParts c parts).eval (fun call => handleConfig call m) s).1 = .ok () := by
  induction parts generalizing s with
  | nil => rfl
  | cons part parts ih =>
    have hcreate : handleConfig (.create c part) m s = (.ok (), s.provision c part) := by
      rw [handleConfig, hm, onCollection_none hc]
    rw [createParts, Prog.eval_bind, Prog.eval_ask, hcreate]
    exact ih _

private theorem eval_get (c : String) :
    ((res.resolver.get res.tenant c).eval (fun call => handleConfig call ⟨.none, res.now⟩)
      res.settings).1 =
    match res.settings.fresh res.resolver.proc (cacheKey res.tenant c) res.now with
    | some cfg => .ok cfg
    | none =>
      match validateLogical c with
      | .error e => .error (.name e)
      | .ok () =>
        (res.settings.docs c).elim (.error .notFound) fun cfg => .ok cfg.withDefaults := by
  have hcached : handleConfig (.cached res.resolver.proc (cacheKey res.tenant c)) ⟨.none, res.now⟩
      res.settings =
        (res.settings.fresh res.resolver.proc (cacheKey res.tenant c) res.now, res.settings) := rfl
  have hstored : handleConfig (.getConfig c) ⟨.none, res.now⟩ res.settings =
      onCollection c .none res.settings ((res.settings.docs c).elim (.error .notFound) .ok,
        res.settings) := rfl
  rw [ConfigResolver.get, Prog.eval_bind, Prog.eval_ask, hcached]
  cases res.settings.fresh res.resolver.proc (cacheKey res.tenant c) res.now with
  | some cfg => rfl
  | none =>
    dsimp only
    rw [Prog.eval_bind, Prog.eval_ask, hstored, onCollection]
    cases validateLogical c with
    | error e => rfl
    | ok u =>
      cases res.settings.docs c with
      | none => rfl
      | some cfg => rfl

/-- The settings are in the cache; or the name is one of a collection, and there are settings or the
collection may be created. -/
def Resolvable (c : String) : Prop :=
  (res.settings.fresh res.resolver.proc (cacheKey res.tenant c) res.now).isSome = true ∨
    logicalName c = true ∧
      ((res.settings.docs c).isSome = true ∨ res.resolver.autoCreate = true)

instance (c : String) : Decidable (res.Resolvable c) := inferInstanceAs (Decidable (_ ∨ _))

private theorem resolves_iff (c : String) : res.resolves c = true ↔ res.Resolvable c := by
  rw [Resolvable]
  have hcreate : logicalName c = true → ∀ s, ((ensurePhysical c).eval
      (fun call => handleConfig call ⟨.none, res.now⟩) s).1 = .ok () :=
    fun hc s => eval_createParts hc _ rfl _ s
  rw [resolves, ConfigResolver.ensureCollection, Prog.eval_bind, eval_get]
  cases hfresh : res.settings.fresh res.resolver.proc (cacheKey res.tenant c) res.now with
  | some cfg => simp
  | none =>
    cases hname : validateLogical c with
    | error e =>
      have hc : logicalName c = false := by
        by_contra hc
        rw [Bool.not_eq_false, ← validateLogical_eq_ok, hname] at hc
        cases hc
      simp [hc]
    | ok u =>
      have hc := validateLogical_eq_ok.mp hname
      cases hdocs : res.settings.docs c with
      | some cfg => simp [hc]
      | none =>
        cases hauto : res.resolver.autoCreate with
        | false => simp
        | true =>
          have hsave : ∀ s, handleConfig (.saveConfig (ConfigResolver.created c))
              ⟨.none, res.now⟩ s = (.ok (), s.save (ConfigResolver.created c)) :=
            fun s => onCollection_none hc s _
          refine iff_of_true ?_ (.inr ⟨hc, .inr rfl⟩)
          dsimp only [Option.elim]
          rw [if_neg (by simp), if_neg (by simp), Prog.eval_bind, Prog.eval_ask, hsave]
          dsimp only
          rw [Prog.eval_bind, hcreate hc]
          rfl

end Resolution

/-! ### The calls of a worker -/

/-- The calls of a worker: to the database, to the tickets and to the queue. -/
inductive WorkerCall where
  | storage (call : Call)
  | ticket (call : TicketCall)
  | ack

/-- What a call returns. -/
abbrev WorkerCall.Reply : WorkerCall → Type
  | .storage call => Except StoreErr call.Value
  | .ticket call => call.Reply
  | .ack => Unit

/-- The interface of a worker. -/
abbrev WorkerCalls : Interface := ⟨WorkerCall, WorkerCall.Reply⟩

/-- What a worker works on: the database and the tickets of the tenant, and whether the delivery has
been acknowledged. -/
structure WorkerState where
  db : Db
  tickets : TicketStore
  acked : Bool := false

/-- Answer a call that does not fail; settings that cannot be resolved are an answer as well. -/
def serveResolving (srv : Server) (res : Resolution) :
    (call : Call) → Db → Except StoreErr call.Value × Db
  | .ensureCollection c, db =>
    if res.resolves c then serve srv (.ensureCollection c) db else (.error .failed, db)
  | call, db => serve srv call db

/-- Answer a call that does not fail. -/
def WorkerState.serve (srv : Server) (res : Resolution) :
    (call : WorkerCall) → WorkerState → call.Reply × WorkerState
  | .storage call, s =>
    let r := serveResolving srv res call s.db
    (r.1, { s with db := r.2 })
  | .ticket call, s =>
    let r := s.tickets.serve call
    (r.1, { s with tickets := r.2 })
  | .ack, s => ((), { s with acked := true })

/-- The tickets after a mark. -/
def TicketStore.marked (tickets : TicketStore) (m : Mark) : TicketStore :=
  (m.prog.eval (fun call s => s.serve call) tickets).2

private theorem TicketStore.marked_of_legal {tickets : TicketStore} {m : Mark} {tk : TrackedTicket}
    (hne : m.id ≠ "") (htk : tickets m.id = some tk) (hid : tk.id = m.id)
    (hlegal : tk.status.canTransition m.status = true) :
    tickets.marked m = update tickets m.id (some (m.saved tk)) := by
  have hmoves : ¬ (tk.status = m.status ∨ tk.status.canTransition m.status = false) := by
    rintro (heq | hnot)
    · rw [heq, TicketStatus.canTransition_irrefl] at hlegal
      cases hlegal
    · rw [hnot] at hlegal
      cases hlegal
  have hget : tickets.serve (.get m.id) = (.ok tk, tickets) := by
    simp [TicketStore.serve, htk]
  have hsave : tickets.serve (.save (m.saved tk)) =
      (.ok (), update tickets m.id (some (m.saved tk))) := by
    simp [TicketStore.serve, Mark.saved, hid, htk]
  rw [marked, Mark.prog, if_neg hne, Prog.eval_bind, Prog.eval_ask, hget]
  dsimp only
  rw [Mark.advance, if_neg hmoves, Prog.eval_ask, hsave]

/-! ### Handling a delivery -/

/-- The kind is one that the write path knows. -/
def Kind.known : Kind → Bool
  | .state | .diff | .delete => true
  | .other _ => false

/-- What processing a delivery has come to. -/
inductive Processed where
  | done
  | poison
  | retry
  deriving DecidableEq

namespace Worker

variable (wk : Worker) (text : IngestErr → String) (now : Stamps) (clock : Time)

/-- A program for the database. -/
def onStorage {α : Type} (p : Prog Storage α) : Prog WorkerCalls α :=
  p.via WorkerCall.storage fun _ r => r

/-- A program for the tickets. -/
def onTickets {α : Type} (p : Prog Tickets α) : Prog WorkerCalls α :=
  p.via WorkerCall.ticket fun _ r => r

/-- Record a move of a ticket; failures are ignored. -/
def markTicket (m : Mark) : Prog WorkerCalls Unit := do
  let _ ← onTickets m.prog
  return ()

/-- Apply a task and settle its ticket. -/
def processTask : TaskMessage → Prog WorkerCalls Processed
  | .malformed _ => return .poison
  | .task t => do
    markTicket ⟨t.ticketID, .processing, "", clock⟩
    match t.kind with
    | .other name =>
      markTicket ⟨t.ticketID, .failed, text (.unknownKind name), clock⟩
      return .poison
    | kind =>
      match ← onStorage (applyOne wk.ing now kind t.command) with
      | .ok _ =>
        markTicket ⟨t.ticketID, .stored, "", clock⟩
        return .done
      | .error e =>
        if e.isPermanent then
          markTicket ⟨t.ticketID, .failed, text e, clock⟩
          return .poison
        else return .retry

/-- Handle a delivery: acknowledge it unless it is to be retried. -/
def handleDelivery (m : TaskMessage) : Prog WorkerCalls Unit := do
  match ← wk.processTask text now clock m with
  | .done | .poison => Prog.ask (I := WorkerCalls) .ack
  | .retry => return ()

/-- What applying a task comes to, where no call fails. -/
def applied (res : Resolution) (t : QueuedTask) (db : Db) :
    Except IngestErr IngestResult × Db :=
  (applyOne wk.ing now t.kind t.command).eval (serveResolving wk.srv res) db

variable {wk text now clock}

private theorem eval_onStorage {α : Type} (res : Resolution) (p : Prog Storage α)
    (s : WorkerState) : (onStorage p).eval (WorkerState.serve wk.srv res) s =
      ((p.eval (serveResolving wk.srv res) s.db).1,
        { s with db := (p.eval (serveResolving wk.srv res) s.db).2 }) :=
  Prog.eval_via WorkerState.db (fun s db => { s with db }) (fun _ _ => rfl) (fun _ _ _ => rfl)
    (fun _ => rfl) (fun _ _ => ⟨rfl, rfl⟩) p s

private theorem eval_onTickets {α : Type} (res : Resolution) (p : Prog Tickets α)
    (s : WorkerState) : (onTickets p).eval (WorkerState.serve wk.srv res) s =
      ((p.eval (fun call s => s.serve call) s.tickets).1,
        { s with tickets := (p.eval (fun call s => s.serve call) s.tickets).2 }) :=
  Prog.eval_via WorkerState.tickets (fun s tickets => { s with tickets }) (fun _ _ => rfl)
    (fun _ _ _ => rfl) (fun _ => rfl) (fun _ _ => ⟨rfl, rfl⟩) p s

private theorem eval_markTicket (res : Resolution) (m : Mark) (s : WorkerState) :
    (markTicket m).eval (WorkerState.serve wk.srv res) s =
      ((), { s with tickets := s.tickets.marked m }) := by
  rw [markTicket, Prog.eval_bind, eval_onTickets]
  rfl

variable {t : QueuedTask} {e : IngestErr} {res : Resolution} {db : Db}

private theorem eval_processTask_other (res : Resolution) {name : String}
    (hkind : t.kind = .other name) (s : WorkerState) :
    (wk.processTask text now clock (.task t)).eval (WorkerState.serve wk.srv res) s =
      (.poison, { s with
        tickets := (s.tickets.marked ⟨t.ticketID, .processing, "", clock⟩).marked
          ⟨t.ticketID, .failed, text (.unknownKind name), clock⟩ }) := by
  rw [processTask, Prog.eval_bind, eval_markTicket, hkind]
  dsimp only
  rw [Prog.eval_bind, eval_markTicket]
  rfl

variable (text clock) in
private theorem eval_processTask_error (res : Resolution) (hkind : t.kind.known = true)
    (s : WorkerState) (he : (wk.applied now res t s.db).1 = .error e) :
    ((wk.processTask text now clock (.task t)).eval (WorkerState.serve wk.srv res) s).1 =
        (if e.isPermanent then .poison else .retry) ∧
      ((wk.processTask text now clock (.task t)).eval (WorkerState.serve wk.srv res) s).2.tickets =
        (if e.isPermanent then (s.tickets.marked ⟨t.ticketID, .processing, "", clock⟩).marked
          ⟨t.ticketID, .failed, text e, clock⟩
        else s.tickets.marked ⟨t.ticketID, .processing, "", clock⟩) ∧
      ((wk.processTask text now clock (.task t)).eval (WorkerState.serve wk.srv res) s).2.acked =
        s.acked := by
  have happly : ∀ kind, t.kind = kind →
      ((applyOne wk.ing now kind t.command).eval (serveResolving wk.srv res) s.db).1 =
        .error e := by
    rintro kind rfl
    exact he
  rw [processTask, Prog.eval_bind, eval_markTicket]
  cases hk : t.kind with
  | other name => rw [hk] at hkind; cases hkind
  | state | diff | delete =>
    dsimp only
    rw [Prog.eval_bind, eval_onStorage, happly _ hk]
    dsimp only
    split_ifs
    · rw [Prog.eval_bind, eval_markTicket]
      exact ⟨rfl, rfl, rfl⟩
    · exact ⟨rfl, rfl, rfl⟩

/-! ### Which failures are final -/

/-- The write of a task. -/
def writeOf (wk : Worker) (now : Stamps) (t : QueuedTask) : Write :=
  ⟨wk.ing, now, t.kind, t.command⟩

/-- The task repeats an event id, and the text of the server's error for it names the index of
versions as well. -/
def Confused (wk : Worker) (now : Stamps) (t : QueuedTask) (db : Db) : Prop :=
  ∃ ev newState deleted, (wk.writeOf now t).decision db = .ok (some (ev, newState, deleted)) ∧
    ¬ db.EventIDFree t.command.collection ((wk.writeOf now t).next db ev) ∧
    wk.srv.Confuses t.command.collection ((wk.writeOf now t).next db ev) = true

/-- A failure of the task is taken for final: the kind is not known, or the settings of the
collection can be resolved, the expected version is the current one, and the task is not confused
with one that has lost a race. -/
def Final (wk : Worker) (now : Stamps) (res : Resolution) (t : QueuedTask) (db : Db) : Prop :=
  t.kind.known = false ∨
    res.Resolvable t.command.collection ∧
      versionMatches t.command.expectedVersion
        (db.curVersion t.command.collection t.command.entityID) = true ∧ ¬ wk.Confused now t db

private theorem applied_of_unresolved (h : res.resolves t.command.collection = false) :
    (wk.applied now res t db).1 = .error (.store .failed) := by
  have hserve : serveResolving wk.srv res (.ensureCollection t.command.collection) db =
      (.error .failed, db) := by
    simp [serveResolving, h]
  have hprepare : (prepare t.command).eval (serveResolving wk.srv res) db =
      (.error (.store .failed), db) := by
    rw [prepare, Prog.eval_bind, Prog.eval_ask, hserve]
    rfl
  rw [applied, applyOne, Prog.eval_bind, hprepare]
  rfl

private theorem applied_of_resolved (h : res.resolves t.command.collection = true) :
    wk.applied now res t db = (wk.writeOf now t).prog.eval (serve wk.srv) db := by
  refine Prog.eval_congr (wk.writeOf now t).calls_prog fun call s hcall => ?_
  cases call with
  | ensureCollection c =>
    obtain rfl : c = t.command.collection := hcall
    simp [serveResolving, h]
  | _ => rfl

private theorem applied_error (hres : res.resolves t.command.collection = true)
    (he : (wk.applied now res t db).1 = .error e) :
    (wk.writeOf now t).decision db = .error e ∨ e = .versionConflict ∧ wk.Confused now t db := by
  rw [applied_of_resolved hres] at he
  obtain ⟨seen, heff⟩ := (wk.writeOf now t).effect_eval wk.srv db
  rw [he] at heff
  generalize ((wk.writeOf now t).prog.eval (serve wk.srv) db).2 = db' at heff
  generalize hr : (Except.error e : Except IngestErr IngestResult) = r at heff
  cases heff with
  | failed hfault =>
    obtain ⟨call, f, hf, hne⟩ := hfault
    exact absurd hf hne
  | undecided hdec =>
    cases hr
    exact .inl hdec
  | noChange => cases hr
  | duplicate hdec htaken =>
    split_ifs at hr with hconf
    cases hr
    exact .inr ⟨rfl, _, _, _, hdec, htaken, hconf⟩
  | lost _ _ hfault => cases hfault
  | stale _ _ hfault =>
    obtain ⟨f, hf, hne⟩ := hfault
    exact absurd hf hne
  | stored => cases hr

private theorem applied_of_decision (hres : res.resolves t.command.collection = true)
    (hdec : (wk.writeOf now t).decision db = .error e) :
    (wk.applied now res t db).1 = .error e := by
  rw [applied_of_resolved hres]
  obtain ⟨seen, heff⟩ := (wk.writeOf now t).effect_eval wk.srv db
  generalize ((wk.writeOf now t).prog.eval (serve wk.srv) db).1 = value at heff ⊢
  generalize ((wk.writeOf now t).prog.eval (serve wk.srv) db).2 = db' at heff
  cases heff with
  | failed hfault =>
    obtain ⟨call, f, hf, hne⟩ := hfault
    exact absurd hf hne
  | undecided hdec' =>
    rw [hdec] at hdec'
    cases hdec'
    rfl
  | noChange hdec' | duplicate hdec' | lost hdec' | stale hdec' | stored hdec' =>
    rw [hdec] at hdec'
    cases hdec'

/-- **A stale lock.** A task that expects a version below the current one fails in every store that
further writes and batches lead to. -/
theorem stale_lock_fails {n : Int} (hres : res.resolves t.command.collection = true)
    (hseq : ∀ c e, db.Sequenced c e) (hn : t.command.expectedVersion = some n)
    (hstale : n < db.curVersion t.command.collection t.command.entityID) (jobs : List Job) :
    (wk.applied now res t (afterJobs wk.srv db jobs)).1 = .error .versionConflict := by
  refine applied_of_decision hres ?_
  have hle := curVersion_le_afterJobs wk.srv hseq jobs t.command.collection t.command.entityID
  have hlock : ¬ versionMatches t.command.expectedVersion
      ((afterJobs wk.srv db jobs).curVersion t.command.collection t.command.entityID) = true := by
    simp only [hn, versionMatches, decide_eq_true_eq]
    omega
  rw [Write.decision]
  exact if_pos hlock

private theorem isPermanent_of_decision {w : Write} (hkind : w.kind.known = true)
    (hlock : versionMatches w.cmd.expectedVersion (db.curVersion w.coll w.eid) = true)
    (hdec : w.decision db = .error e) : e.isPermanent = true := by
  rw [Db.curVersion] at hlock
  rw [Write.decision, if_neg (not_not.mpr hlock)] at hdec
  split at hdec
  · next hplan =>
    cases hdec
    rcases planEvent_error hplan with ⟨cause, rfl⟩ | rfl | ⟨name, hother, -⟩
    · rfl
    · rfl
    · rw [hother] at hkind
      cases hkind
  · cases hdec
  · split at hdec
    · next hhooks =>
      cases hdec
      rw [Write.hooked] at hhooks
      split_ifs at hhooks
      obtain ⟨name, cause, rfl⟩ := runPreStore_error hhooks
      rfl
    · cases hdec

/-- **Which failures are on the list.** -/
theorem isPermanent_iff (hkind : t.kind.known = true)
    (he : (wk.applied now res t db).1 = .error e) :
    e.isPermanent = true ↔ wk.Final now res t db := by
  rw [Final, hkind, ← Resolution.resolves_iff]
  cases hres : res.resolves t.command.collection with
  | false =>
    rw [applied_of_unresolved hres] at he
    cases he
    simp [IngestErr.isPermanent]
  | true =>
    simp only [Bool.true_eq_false, true_and, false_or]
    rcases applied_error hres he with hdec | ⟨rfl, hconf⟩
    · by_cases hlock : versionMatches t.command.expectedVersion
          (db.curVersion t.command.collection t.command.entityID) = true
      · refine iff_of_true (isPermanent_of_decision hkind hlock hdec) ⟨hlock, ?_⟩
        rintro ⟨ev, newState, deleted, hok, -⟩
        rw [hdec] at hok
        cases hok
      · have hconflict : (wk.writeOf now t).decision db = .error .versionConflict := by
          rw [Write.decision]
          exact if_pos hlock
        rw [hdec] at hconflict
        cases hconflict
        exact iff_of_false (by simp [IngestErr.isPermanent]) fun h => hlock h.1
    · exact iff_of_false (by simp [IngestErr.isPermanent]) fun h => h.2 hconf

/-- The ticket of the task is marked as failed and its delivery acknowledged. -/
def Settled (t : QueuedTask) (s : WorkerState) : Prop :=
  s.acked = true ∧ ∃ tk, s.tickets t.ticketID = some tk ∧ tk.status = .failed

end Worker

/-- **Tasks that fail.** The first time that a worker handles a task that fails, where no call does,
it acknowledges the delivery and marks the ticket as failed if and only if the failure is one that
it takes for final. Otherwise the delivery stays on the queue and the ticket in processing. -/
theorem failing_task_settled_iff (wk : Worker) (text : IngestErr → String) (now : Stamps)
    (clock : Time) (res : Resolution) (t : QueuedTask) (s : WorkerState) {tk : TrackedTicket}
    (hne : t.ticketID ≠ "") (htk : s.tickets t.ticketID = some tk) (hid : tk.id = t.ticketID)
    (hstatus : tk.status = .accepted) (hacked : s.acked = false)
    (hfails : ∃ e, (wk.applied now res t s.db).1 = .error e) :
    let s' := ((wk.handleDelivery text now clock (.task t)).eval (WorkerState.serve wk.srv res) s).2
    (Worker.Settled t s' ↔ wk.Final now res t s.db) ∧
      (¬ wk.Final now res t s.db → s'.acked = false ∧
        ∃ tk', s'.tickets t.ticketID = some tk' ∧ tk'.status = .processing) := by
  intro s'
  obtain ⟨e, he⟩ := hfails
  set started : Mark := ⟨t.ticketID, .processing, "", clock⟩ with hstarted
  have hmark : s.tickets.marked started =
      update s.tickets t.ticketID (some (started.saved tk)) :=
    TicketStore.marked_of_legal hne htk hid (by rw [hstatus]; rfl)
  -- a ticket in processing may fail
  have hfail : ∀ reason, ((s.tickets.marked started).marked ⟨t.ticketID, .failed, reason, clock⟩)
      t.ticketID = some ((Mark.mk t.ticketID .failed reason clock).saved (started.saved tk)) := by
    intro reason
    have hsaved : update s.tickets t.ticketID (some (started.saved tk)) t.ticketID =
        some (started.saved tk) := update_self ..
    rw [hmark, TicketStore.marked_of_legal (m := ⟨t.ticketID, .failed, reason, clock⟩) hne hsaved
      hid rfl]
    exact update_self ..
  have hs' : s' = ((wk.handleDelivery text now clock (.task t)).eval
      (WorkerState.serve wk.srv res) s).2 := rfl
  rw [Worker.handleDelivery, Prog.eval_bind] at hs'
  cases hkind : t.kind.known with
  | false =>
    obtain ⟨name, hname⟩ : ∃ name, t.kind = .other name := by
      cases hk : t.kind with
      | other name => exact ⟨name, rfl⟩
      | _ => rw [hk] at hkind; cases hkind
    rw [Worker.eval_processTask_other res hname] at hs'
    rw [hs']
    have hfinal : wk.Final now res t s.db := .inl hkind
    exact ⟨iff_of_true ⟨rfl, _, hfail _, rfl⟩ hfinal, fun h => absurd hfinal h⟩
  | true =>
    obtain ⟨hvalue, htickets, hack⟩ := Worker.eval_processTask_error text clock res hkind s he
    rw [hvalue] at hs'
    have hiff := Worker.isPermanent_iff hkind he
    cases hperm : e.isPermanent with
    | true =>
      rw [hperm] at hs' htickets
      refine ⟨iff_of_true ?_ (hiff.mp hperm), fun h => absurd (hiff.mp hperm) h⟩
      rw [hs']
      exact ⟨rfl, _, (congrFun htickets t.ticketID).trans (hfail _), rfl⟩
    | false =>
      rw [hperm] at hs' htickets
      have hnot : ¬ wk.Final now res t s.db := by
        rw [← hiff, hperm]
        simp
      have hleft : s'.acked = false := by
        rw [hs']
        exact hack.trans hacked
      refine ⟨iff_of_false (fun h => ?_) hnot, fun _ => ⟨hleft, started.saved tk, ?_, rfl⟩⟩
      · rw [Worker.Settled, hleft] at h
        cases h.1
      · rw [hs']
        exact (congrFun htickets t.ticketID).trans (hmark ▸ update_self ..)

/-- A task with a diff that cannot be applied: it is settled at once. -/
theorem failing_task_settled_iff_bad_diff :
    let t : QueuedTask := ⟨⟨"acme", "", ""⟩, .diff, .durable, "7",
      { collection := "deals", entityID := "42", changes := some [⟨"[", .add, .null, .null⟩] }⟩
    let s : WorkerState := ⟨fun _ => {}, fun _ => some { id := "7", entityCollection := "deals",
                                                         entityID := "42" }, false⟩
    let res : Resolution := { tenant := ⟨"acme", "", ""⟩ }
    let wk : Worker := { shards := 1 }
    Worker.Settled t ((wk.handleDelivery (fun _ => "") ⟨⟨1⟩, ⟨1⟩⟩ ⟨1⟩ (.task t)).eval
      (WorkerState.serve .mongo res) s).2 := by
  intro t s res wk
  have hfails : ∃ e, (wk.applied ⟨⟨1⟩, ⟨1⟩⟩ res t s.db).1 = .error e :=
    ⟨.invalidDiff (.malformedSelector "["), by decide⟩
  refine (failing_task_settled_iff wk (fun _ => "") ⟨⟨1⟩, ⟨1⟩⟩ ⟨1⟩ res t s (by decide) rfl rfl rfl
    rfl hfails).1.mpr (.inr ⟨by decide, by decide, ?_⟩)
  have hdec : (wk.writeOf ⟨⟨1⟩, ⟨1⟩⟩ t).decision s.db =
      .error (.invalidDiff (.malformedSelector "[")) := by decide
  rintro ⟨ev, newState, deleted, hok, -⟩
  rw [hdec] at hok
  cases hok

/-- A deal is in version 1, and a task expects version 0. However many writes and batches come
after, to whatever entities, the task fails. The worker leaves it on the queue and its ticket in
processing. -/
theorem stale_lock_never_settled :
    let db := afterJobs .mongo (fun _ => {})
      [.write (.ofState "deals" "42" [("won", .bool false)])]
    let t : QueuedTask := ⟨⟨"acme", "", ""⟩, .state, .durable, "7",
      { collection := "deals", entityID := "42", expectedVersion := some 0,
        state := [("won", .bool true)] }⟩
    let s : WorkerState := ⟨db, fun _ => some { id := "7", entityCollection := "deals",
                                                entityID := "42" }, false⟩
    let res : Resolution := { tenant := ⟨"acme", "", ""⟩ }
    let wk : Worker := { shards := 1 }
    let s' := ((wk.handleDelivery (fun _ => "") ⟨⟨2⟩, ⟨2⟩⟩ ⟨2⟩ (.task t)).eval
      (WorkerState.serve .mongo res) s).2
    (∀ jobs, (wk.applied ⟨⟨2⟩, ⟨2⟩⟩ res t (afterJobs .mongo db jobs)).1 =
        .error .versionConflict) ∧
      s'.acked = false ∧ (s'.tickets "7").map TrackedTicket.status = some .processing := by
  intro db t s res wk s'
  have hblank : Db.Blank fun _ => {} := fun _ => ⟨rfl, fun _ => rfl⟩
  have hseq : ∀ c e, db.Sequenced c e := Job.sequenced_run .mongo hblank.sequenced
    [(.write (.ofState "deals" "42" [("won", .bool false)]), fun _ _ => Fault.none)]
  exact ⟨Worker.stale_lock_fails (n := 0) (by decide) hseq rfl (by decide), by decide, by decide⟩

end Letopis
