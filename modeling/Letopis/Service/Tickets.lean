import Letopis.Interleaving.Trace
import Letopis.Service.Async

/-!
# Tickets

A ticket tracks an asynchronously accepted write. `mark` advances it: it reads the ticket, checks
the move against the legal ones (`canTransition`) and saves the ticket with the new status. The two
steps are separate calls to Redis, each of them atomic. `Save` replaces a ticket that is there and
refuses one that has expired; it does not look at the status that it replaces.
-/

namespace Letopis

open Interleaving

/-! ### Statuses -/

/-- The lifecycle of an asynchronously accepted write. -/
inductive TicketStatus where
  | accepted
  | processing
  | stored
  | failed
  /-- `partial`: a batch receipt some of whose items were rejected up front. -/
  | partially
  deriving DecidableEq

namespace TicketStatus

/-- The status is an end state. -/
def terminal (s : TicketStatus) : Bool := s = .stored || s = .failed || s = .partially

/-- The moves that are legal. -/
def canTransition (source target : TicketStatus) : Bool :=
  match source with
  | .accepted => target = .processing || target = .stored || target = .failed
  | .processing => target = .stored || target = .failed
  | .stored | .failed | .partially => false

theorem canTransition_trans {a b c : TicketStatus} (hab : a.canTransition b = true)
    (hbc : b.canTransition c = true) : a.canTransition c = true := by
  revert hab hbc
  cases a <;> cases b <;> cases c <;> decide

theorem canTransition_irrefl (a : TicketStatus) : a.canTransition a = false := by
  cases a <;> rfl

/-- There is no way out of an end state, and out of every other status there is one. -/
theorem terminal_iff {a : TicketStatus} : a.terminal = true ↔ ∀ b, a.canTransition b = false := by
  cases a with
  | accepted => exact iff_of_false (by decide) fun h => absurd (h .stored) (by decide)
  | processing => exact iff_of_false (by decide) fun h => absurd (h .stored) (by decide)
  | stored | failed | partially => exact iff_of_true rfl fun _ => rfl

end TicketStatus

/-! ### The store -/

/-- A ticket with its progress. -/
structure TrackedTicket extends Ticket where
  status : TicketStatus := .accepted
  error : String := ""
  createdAt : Time := .zero
  updatedAt : Time := .zero

/-- An error of the ticket store. -/
inductive TicketErr where
  /-- The id is unknown, or the ticket has expired. -/
  | notFound
  | unavailable
  deriving DecidableEq

/-- The calls to the ticket store. -/
inductive TicketCall where
  | get (id : String)
  | save (t : TrackedTicket)

/-- What a call returns. -/
abbrev TicketCall.Reply : TicketCall → Type
  | .get _ => Except TicketErr TrackedTicket
  | .save _ => Except TicketErr Unit

/-- The interface of the ticket store. -/
abbrev Tickets : Interface := ⟨TicketCall, TicketCall.Reply⟩

/-- Make one call. -/
abbrev Tickets.ask (call : TicketCall) : Prog Tickets call.Reply := Prog.ask (I := Tickets) call

/-- The tickets of a tenant, by id. -/
abbrev TicketStore : Type := String → Option TrackedTicket

namespace TicketStore

/-- Answer a call that does not fail. -/
def serve : (c : TicketCall) → TicketStore → c.Reply × TicketStore
  | .get id, s => ((s id).elim (.error .notFound) .ok, s)
  | .save t, s =>
    if (s t.id).isSome then (.ok (), Function.update s t.id (some t)) else (.error .notFound, s)

/-- The ticket that a call is about has expired. -/
def expire (s : TicketStore) : TicketCall → TicketStore
  | .get id => Function.update s id none
  | .save t => Function.update s t.id none

end TicketStore

/-- The reply of a call that fails. -/
def TicketCall.failure : (c : TicketCall) → c.Reply
  | .get _ | .save _ => .error .unavailable

/-- Answer a call of the ticket store. -/
def handleTicket : Handler Tickets Mishap TicketStore := fun c f s =>
  match f with
  | .none => s.serve c
  | .failed | .refused _ => (c.failure, s)
  | .lost => (c.failure, (s.serve c).2)
  | .expired => (s.expire c).serve c

/-! ### Marking -/

/-- A request to advance a ticket. -/
structure Mark where
  id : String
  status : TicketStatus
  reason : String := ""
  now : Time := .zero

namespace Mark

variable (m : Mark)

/-- The ticket as it is saved. -/
def saved (t : TrackedTicket) : TrackedTicket :=
  { t with status := m.status, error := m.reason, updatedAt := m.now }

/-- The rest of a mark, from the reply to its look at the ticket on. A move that is not legal, or
to the status it has, is silently dropped. -/
def advance : Except TicketErr TrackedTicket → Prog Tickets (Except TicketErr Unit)
  | .error .notFound => return .ok ()
  | .error .unavailable => return .error .unavailable
  | .ok t =>
    if t.status = m.status ∨ t.status.canTransition m.status = false then return .ok ()
    else Tickets.ask (.save (m.saved t))

/-- Move the ticket on, if there is one. -/
def prog : Prog Tickets (Except TicketErr Unit) :=
  if m.id = "" then return .ok ()
  else Tickets.ask (.get m.id) >>= m.advance

end Mark

/-- How the ticket of a fast write is settled: directly with an end state. -/
def settle (ticketID : String) (text : IngestErr → String) : Option IngestErr → Mark
  | none => ⟨ticketID, .stored, "", .zero⟩
  | some e => ⟨ticketID, .failed, text e, .zero⟩

end Letopis
