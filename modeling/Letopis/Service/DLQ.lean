import Letopis.Delivery.Task
import Letopis.Storage.Db

/-!
# Dead letters

All dead letters of a tenant are in one collection. They are listed by rule, newest first. To
redeliver one is to publish its delivery again and then to delete it; that the deletion fails is
not reported. Without ids, the dead letters of a rule are redelivered page by page, the first page
each time, until a page is not full.
-/

namespace Letopis

open Interleaving

/-! ### The store -/

/-- A position in a listing. -/
structure DLQCursor where
  /-- When the last dead letter of the page was parked. -/
  failedAt : Time
  id : String
  deriving DecidableEq

/-- The dead letters of a tenant, ids being unique, and the tasks that have been published. -/
structure DLQStore where
  letters : List DeadLetter
  nodup : (letters.map DeadLetter.id).Nodup
  queue : List DeliveryTask := []

/-- An error of the store of dead letters. -/
inductive DLQErr where
  | notFound
  | failed
  deriving DecidableEq

namespace DLQStore

/-- The dead letter comes strictly after the cursor. -/
def afterCursor (cursor : DLQCursor) (dl : DeadLetter) : Bool :=
  dl.failedAt.ns < cursor.failedAt.ns ||
    (dl.failedAt.ns = cursor.failedAt.ns && dl.id < cursor.id)

/-- Newest first, ties broken by id. -/
def precedes (a b : DeadLetter) : Bool :=
  b.failedAt.ns < a.failedAt.ns || (b.failedAt.ns = a.failedAt.ns && !decide (a.id < b.id))

/-- A page of the dead letters of a rule. -/
def list (s : DLQStore) (ruleID : String) (limit : Nat) (cursor : Option DLQCursor) :
    List DeadLetter :=
  let selected := s.letters.filter fun dl =>
    dl.ruleID = ruleID && cursor.all fun cur => afterCursor cur dl
  let sorted := selected.insertionSort fun a b => precedes a b
  if limit = 0 then sorted else sorted.take limit

theorem of_mem_list {s : DLQStore} {ruleID : String} {limit : Nat} {cursor : Option DLQCursor}
    {dl : DeadLetter} (h : dl ∈ s.list ruleID limit cursor) :
    dl ∈ s.letters ∧ dl.ruleID = ruleID := by
  have hsorted : dl ∈ (s.letters.filter fun dl =>
      dl.ruleID = ruleID && cursor.all fun cur => afterCursor cur dl).insertionSort
        fun a b => precedes a b := by
    rw [list] at h
    split_ifs at h
    · exact h
    · exact List.mem_of_mem_take h
  rw [List.mem_insertionSort, List.mem_filter, Bool.and_eq_true, decide_eq_true_eq] at hsorted
  exact ⟨hsorted.1, hsorted.2.1⟩

/-- Delete a dead letter. -/
def delete (s : DLQStore) (id : String) : DLQStore :=
  { s with
    letters := s.letters.filter fun dl => dl.id ≠ id
    nodup := s.nodup.sublist (List.filter_sublist.map _) }

/-- Publish a task. -/
def publish (s : DLQStore) (task : DeliveryTask) : DLQStore :=
  { s with queue := s.queue ++ [task] }

end DLQStore

/-! ### Calls -/

/-- The calls on dead letters. -/
inductive DLQCall where
  | list (ruleID : String) (limit : Nat) (cursor : Option DLQCursor)
  | get (id : String)
  | delete (id : String)
  | publish (task : DeliveryTask)

/-- What a call returns when it succeeds. -/
abbrev DLQCall.Value : DLQCall → Type
  | .list _ _ _ => List DeadLetter
  | .get _ => DeadLetter
  | .delete _ | .publish _ => Unit

/-- The interface of the dead letters. -/
abbrev DeadLetters : Interface := ⟨DLQCall, fun c => Except DLQErr c.Value⟩

/-- Make one call. -/
abbrev DeadLetters.ask (call : DLQCall) : Prog DeadLetters (Except DLQErr call.Value) :=
  Prog.ask (I := DeadLetters) call

namespace DLQStore

/-- Answer a call that does not fail. -/
def serve : (c : DLQCall) → DLQStore → Except DLQErr c.Value × DLQStore
  | .list ruleID limit cursor, s => (.ok (s.list ruleID limit cursor), s)
  | .get id, s => ((s.letters.find? fun dl => dl.id = id).elim (.error .notFound) .ok, s)
  | .delete id, s =>
    if s.letters.any fun dl => dl.id = id then (.ok (), s.delete id) else (.error .notFound, s)
  | .publish task, s => (.ok (), s.publish task)

end DLQStore

/-- Answer a call under a fault. -/
def handleDLQ : Handler DeadLetters Fault DLQStore := fun c f s =>
  match f with
  | .none => s.serve c
  | .before => (.error .failed, s)
  | .after => (.error .failed, (s.serve c).2)

/-! ### The programs -/

/-- The size of a page when all dead letters of a rule are redelivered. -/
def redeliverAllPageSize : Nat := 200

namespace DLQService

variable (t : Tenant) (ruleID : String)

/-- Publish a dead letter again, and delete it. -/
def redeliverOne (dl : DeadLetter) : Prog DeadLetters (Except DLQErr Unit) := do
  match ← DeadLetters.ask (.publish (dl.requeued t)) with
  | .error e => return .error e
  | .ok () =>
    let _ ← DeadLetters.ask (.delete dl.id)
    return .ok ()

/-- Redeliver the dead letters with the given ids; `n` is the number of those redelivered before.
The result is the number of all, with the error that has stopped it. -/
def redeliverIDs : List String → Nat → Prog DeadLetters (Nat × Option DLQErr)
  | [], n => return (n, none)
  | id :: ids, n => do
    match ← DeadLetters.ask (.get id) with
    | .error e => return (n, some e)
    | .ok dl =>
      if dl.ruleID ≠ ruleID then return (n, some .notFound)
      else
        match ← redeliverOne t dl with
        | .error e => return (n, some e)
        | .ok () => redeliverIDs ids (n + 1)

/-- Redeliver the dead letters of a page. -/
def redeliverPage : List DeadLetter → Nat → Prog DeadLetters (Nat × Option DLQErr)
  | [], n => return (n, none)
  | dl :: page, n => do
    match ← redeliverOne t dl with
    | .error e => return (n, some e)
    | .ok () => redeliverPage page (n + 1)

/-- Redeliver all dead letters of a rule, in at most `fuel` pages; `none` if they do not do. -/
def redeliverAll : Nat → Nat → Prog DeadLetters (Option (Nat × Option DLQErr))
  | 0, _ => return none
  | fuel + 1, n => do
    match ← DeadLetters.ask (.list ruleID redeliverAllPageSize none) with
    | .error e => return some (n, some e)
    | .ok page =>
      if page = [] then return some (n, none)
      else
        match ← redeliverPage t page n with
        | (n, some e) => return some (n, some e)
        | (n, none) =>
          if page.length < redeliverAllPageSize then return some (n, none)
          else redeliverAll fuel n

/-- Redeliver dead letters of a rule: those with the given ids, or all if there are none. -/
def redeliver (fuel : Nat) (ids : List String) :
    Prog DeadLetters (Option (Nat × Option DLQErr)) :=
  if ids ≠ [] then some <$> redeliverIDs t ruleID ids 0 else redeliverAll t ruleID fuel 0

end DLQService

end Letopis
