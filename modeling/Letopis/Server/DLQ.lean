import Letopis.Server.Read
import Letopis.Service.DLQ

/-!
# The dead letters of a collection

The endpoints under `/collections/{c}/rules/{r}/dlq` check that the key may act on the collection of
the path, and then select dead letters by the rule alone. So they keep to the collection exactly if
all dead letters of the rule are of the collection. Nothing says that they are: a rule id is taken
from the path as it comes.
-/

namespace Letopis

open Interleaving List

/-! ### Requests and responses -/

/-- A request under the path of a collection and a rule. The cursor of a listing and the body of a
redelivery may be absent or malformed. -/
inductive DLQRequest where
  | list (limit : NumberParam) (cursor : Option (Option DLQCursor))
  | redeliver (body : Option (Option (List String)))

/-- A response about dead letters. -/
inductive DLQResponse where
  | error (status : Nat) (message : String)
  | listed (items : List DeadLetter) (nextCursor : Option DLQCursor)
  | requeued (n : Nat)
  /-- The pages have run out, and the request is still being worked on. -/
  | pending
  deriving DecidableEq

/-- Read the limit and the cursor. -/
def parseDLQQuery (limit : NumberParam) (cursor : Option (Option DLQCursor)) :
    Except String (Nat × Option DLQCursor) := do
  let n ← limit.limit
  match cursor with
  | none => return (n, none)
  | some none => .error "invalid cursor"
  | some (some cur) => return (n, some cur)

/-- Read the ids to redeliver; an empty body asks for all. -/
def parseRedeliverBody : Option (Option (List String)) → Except String (List String)
  | none => .ok []
  | some none => .error "invalid JSON body"
  | some (some ids) => .ok ids

/-- Whether the key may act on the dead letters of the collection. -/
def dlqGuard (p : Principal) (collection : String) : Except String Unit :=
  if !p.hasScope .admin then .error "insufficient scope"
  else if !p.canAccess collection then .error "collection not allowed"
  else .ok ()

/-- Where the next page begins, if this one is full. -/
def nextDLQCursor (limit : Nat) (items : List DeadLetter) : Option DLQCursor :=
  if limit > 0 ∧ items.length = limit then
    items.getLast?.map fun last => ⟨last.failedAt, last.id⟩
  else none

/-- `GET …/dlq`. -/
def dlqList (ruleID : String) (limit : NumberParam) (cursor : Option (Option DLQCursor)) :
    Prog DeadLetters DLQResponse :=
  match parseDLQQuery limit cursor with
  | .error message => return .error 400 message
  | .ok (limit, cursor) => do
    match ← DeadLetters.ask (.list ruleID limit cursor) with
    | .error _ => return .error 500 "internal error"
    | .ok items => return .listed items (nextDLQCursor limit items)

/-- `POST …/dlq:redeliver`; `fuel` bounds the pages that a redelivery of all takes. -/
def dlqRedeliver (t : Tenant) (ruleID : String) (fuel : Nat)
    (body : Option (Option (List String))) : Prog DeadLetters DLQResponse :=
  match parseRedeliverBody body with
  | .error message => return .error 400 message
  | .ok ids => do
    match ← DLQService.redeliver t ruleID fuel ids with
    | none => return .pending
    | some (_, some .notFound) => return .error 404 "dead letter not found"
    | some (_, some .failed) => return .error 500 "internal error"
    | some (n, none) => return .requeued n

/-- Answer a request. -/
def DLQRequest.respond (p : Principal) (collection ruleID : String) (fuel : Nat)
    (req : DLQRequest) : Prog DeadLetters DLQResponse :=
  match dlqGuard p collection with
  | .error message => return .error 403 message
  | .ok () =>
    match req with
    | .list limit cursor => dlqList ruleID limit cursor
    | .redeliver body => dlqRedeliver p.tenant ruleID fuel body

/-! ### What is selected -/

section Selected

variable (t : Tenant) (ruleID : String) (s₀ : DLQStore)

/-- Nothing is added to the dead letters, and only those of the rule are put back on the queue. -/
structure Selected (seen : List (Obs DeadLetters)) (s : DLQStore) : Prop where
  letters : s.letters ⊆ s₀.letters
  published : ∀ task res, (⟨.publish task, res⟩ : Obs DeadLetters) ∈ seen →
    ∃ dl ∈ s₀.letters, dl.ruleID = ruleID ∧ task = dl.requeued t

variable {t ruleID s₀} {seen : List (Obs DeadLetters)} {s : DLQStore}

private theorem letters_handleDLQ (c : DLQCall) (f : Fault) (s : DLQStore) :
    (handleDLQ c f s).2.letters ⊆ s.letters := by
  have hserve : (s.serve c).2.letters ⊆ s.letters := by
    cases c with
    | list | get | publish => exact List.Subset.refl _
    | delete id =>
      rw [DLQStore.serve]
      split_ifs
      · exact filter_subset_self ..
      · exact List.Subset.refl _
  cases f with
  | none | after => exact hserve
  | before => exact List.Subset.refl _

theorem Selected.call (h : Selected t ruleID s₀ seen s) {c : DLQCall} (f : Fault)
    (hc : ∀ task, c = .publish task →
      ∃ dl ∈ s₀.letters, dl.ruleID = ruleID ∧ task = dl.requeued t) :
    Selected t ruleID s₀ (⟨c, (handleDLQ c f s).1⟩ :: seen) (handleDLQ c f s).2 := by
  refine ⟨fun dl hdl => h.letters (letters_handleDLQ c f s hdl), fun task res hmem => ?_⟩
  rcases mem_cons.mp hmem with heq | hmem
  · exact hc task (congrArg Sigma.fst heq).symm
  · exact h.published task res hmem

private theorem mem_of_get {id : String} {f : Fault} {dl : DeadLetter}
    (h : (handleDLQ (.get id) f s).1 = .ok dl) : dl ∈ s.letters := by
  cases f with
  | none =>
    change ((s.letters.find? fun dl => dl.id = id).elim (.error .notFound) .ok :
      Except DLQErr DeadLetter) = .ok dl at h
    cases hfind : s.letters.find? fun dl => dl.id = id with
    | none => simp [hfind] at h
    | some dl' =>
      obtain rfl : dl' = dl := by simpa [hfind] using h
      exact mem_of_find?_eq_some hfind
  | before | after => cases h

private theorem mem_of_list {limit : Nat} {cursor : Option DLQCursor} {f : Fault}
    {page : List DeadLetter} (h : (handleDLQ (.list ruleID limit cursor) f s).1 = .ok page) :
    ∀ dl ∈ page, dl ∈ s.letters ∧ dl.ruleID = ruleID := by
  cases f with
  | none =>
    obtain rfl : s.list ruleID limit cursor = page := by simpa [handleDLQ, DLQStore.serve] using h
    exact fun dl hdl => DLQStore.of_mem_list hdl
  | before | after => cases h

open DLQService

private theorem redeliverOne_wp {dl : DeadLetter} (hdl : dl ∈ s₀.letters)
    (hrule : dl.ruleID = ruleID) (h : Selected t ruleID s₀ seen s) :
    Wp handleDLQ (fun _ _ => True) (fun _ => Selected t ruleID s₀) (redeliverOne t dl) seen s := by
  refine Wp.ask_bind_iff.mpr fun f _ => ?_
  have hpublish := h.call f fun task htask => ⟨dl, hdl, hrule, (DLQCall.publish.inj htask).symm⟩
  generalize hres : (handleDLQ (.publish (dl.requeued t)) f s).1 = res at hpublish ⊢
  rcases res with e | ⟨⟩
  · exact hpublish
  · exact Wp.ask_bind_iff.mpr fun f _ => hpublish.call f fun _ h => nomatch h

private theorem redeliverIDs_wp (ids : List String) (n : Nat) (h : Selected t ruleID s₀ seen s) :
    Wp handleDLQ (fun _ _ => True) (fun _ => Selected t ruleID s₀)
      (redeliverIDs t ruleID ids n) seen s := by
  induction ids generalizing n seen s with
  | nil => exact h
  | cons id ids ih =>
    refine Wp.ask_bind_iff.mpr fun f _ => ?_
    have hget := h.call (c := .get id) f fun _ h => nomatch h
    generalize hres : (handleDLQ (.get id) f s).1 = res at hget ⊢
    rcases res with e | dl
    · exact hget
    · dsimp only
      split_ifs with hrule
      · exact hget
      · have hone := redeliverOne_wp (h.letters (mem_of_get hres)) (not_not.mp hrule) hget
        refine Wp.bind_iff.mpr (hone.mono fun res seen s hsel => ?_)
        rcases res with e | ⟨⟩
        · exact hsel
        · exact ih (n + 1) hsel

private theorem redeliverPage_wp {page : List DeadLetter}
    (hpage : ∀ dl ∈ page, dl ∈ s₀.letters ∧ dl.ruleID = ruleID) (n : Nat)
    (h : Selected t ruleID s₀ seen s) :
    Wp handleDLQ (fun _ _ => True) (fun _ => Selected t ruleID s₀)
      (redeliverPage t page n) seen s := by
  induction page generalizing n seen s with
  | nil => exact h
  | cons dl page ih =>
    obtain ⟨⟨hdl, hrule⟩, hpage⟩ := forall_mem_cons.mp hpage
    refine Wp.bind_iff.mpr ((redeliverOne_wp hdl hrule h).mono fun res seen s hsel => ?_)
    rcases res with e | ⟨⟩
    · exact hsel
    · exact ih hpage (n + 1) hsel

private theorem redeliverAll_wp (fuel n : Nat) (h : Selected t ruleID s₀ seen s) :
    Wp handleDLQ (fun _ _ => True) (fun _ => Selected t ruleID s₀)
      (redeliverAll t ruleID fuel n) seen s := by
  induction fuel generalizing n seen s with
  | zero => exact h
  | succ fuel ih =>
    refine Wp.ask_bind_iff.mpr fun f _ => ?_
    have hlist := h.call (c := .list ruleID redeliverAllPageSize none) f fun _ h => nomatch h
    generalize hres : (handleDLQ (.list ruleID redeliverAllPageSize none) f s).1 = res at hlist ⊢
    rcases res with e | page
    · exact hlist
    · have hpage : ∀ dl ∈ page, dl ∈ s₀.letters ∧ dl.ruleID = ruleID := fun dl hdl =>
        ⟨h.letters (mem_of_list hres dl hdl).1, (mem_of_list hres dl hdl).2⟩
      by_cases hempty : page = []
      · simpa [hempty] using hlist
      · simp only [hempty, if_false]
        refine Wp.bind_iff.mpr ((redeliverPage_wp hpage n hlist).mono fun res seen s hsel => ?_)
        rcases res with ⟨n, _ | e⟩
        · dsimp only
          split_ifs
          · exact hsel
          · exact ih n hsel
        · exact hsel

private theorem redeliver_wp (fuel : Nat) (ids : List String) (h : Selected t ruleID s₀ seen s) :
    Wp handleDLQ (fun _ _ => True) (fun _ => Selected t ruleID s₀)
      (redeliver t ruleID fuel ids) seen s := by
  rw [redeliver]
  split_ifs
  · exact Wp.bind_iff.mpr ((redeliverIDs_wp ids 0 h).mono fun _ _ _ hsel => hsel)
  · exact redeliverAll_wp fuel 0 h

/-- The dead letters that are listed are of the rule. -/
def ListsRule (ruleID : String) (s₀ : DLQStore) (resp : DLQResponse) : Prop :=
  ∀ items next, resp = .listed items next → ∀ dl ∈ items, dl ∈ s₀.letters ∧ dl.ruleID = ruleID

private theorem dlqList_wp (limit : NumberParam) (cursor : Option (Option DLQCursor))
    (h : Selected t ruleID s₀ seen s) :
    Wp handleDLQ (fun _ _ => True)
      (fun resp seen s => Selected t ruleID s₀ seen s ∧ ListsRule ruleID s₀ resp)
      (dlqList ruleID limit cursor) seen s := by
  rw [dlqList]
  split
  · exact ⟨h, fun _ _ h => nomatch h⟩
  · rename_i limit cursor _
    refine Wp.ask_bind_iff.mpr fun f _ => ?_
    have hlist := h.call (c := .list ruleID limit cursor) f fun _ h => nomatch h
    generalize hres : (handleDLQ (.list ruleID limit cursor) f s).1 = res at hlist ⊢
    rcases res with e | items
    · exact ⟨hlist, fun _ _ h => nomatch h⟩
    · refine ⟨hlist, fun items' next hitems dl hdl => ?_⟩
      obtain rfl : items = items' := (DLQResponse.listed.inj hitems).1
      exact ⟨h.letters (mem_of_list hres dl hdl).1, (mem_of_list hres dl hdl).2⟩

private theorem dlqRedeliver_wp (fuel : Nat) (body : Option (Option (List String)))
    (h : Selected t ruleID s₀ seen s) :
    Wp handleDLQ (fun _ _ => True)
      (fun resp seen s => Selected t ruleID s₀ seen s ∧ ListsRule ruleID s₀ resp)
      (dlqRedeliver t ruleID fuel body) seen s := by
  rw [dlqRedeliver]
  split
  · exact ⟨h, fun _ _ h => nomatch h⟩
  · refine Wp.bind_iff.mpr ((redeliver_wp fuel _ h).mono fun res seen s hsel => ?_)
    rcases res with _ | ⟨n, _ | _ | _⟩ <;> exact ⟨hsel, fun _ _ h => nomatch h⟩

end Selected

/-! ### Confinement -/

/-- Whatever is asked for under the path of a collection and a rule, and whatever fails: all that is
listed or put back on the queue is of the collection, which the key's mask admits. -/
def Confined (p : Principal) (collection ruleID : String) (s : DLQStore) : Prop :=
  ∀ (req : DLQRequest) (fuel : Nat) (oracle : List (Obs DeadLetters) → DLQCall → Fault),
    let o := (req.respond p collection ruleID fuel).exec handleDLQ oracle [] s
    (∀ items next, o.value = .listed items next →
      ∀ dl ∈ items, dl.collection = collection ∧ p.canAccess dl.collection = true) ∧
    ∀ task res, (⟨.publish task, res⟩ : Obs DeadLetters) ∈ o.seen →
      task.collection = collection ∧ p.canAccess task.collection = true

/-- A key may act on the dead letters of a collection if it has the scope and its mask admits the
collection. -/
theorem dlqGuard_eq_ok {p : Principal} {collection : String} :
    dlqGuard p collection = .ok () ↔
      p.hasScope .admin = true ∧ p.canAccess collection = true := by
  rw [dlqGuard]
  split_ifs with hscope hmask <;> simp_all

private theorem DLQStore.find_of_mem {s : DLQStore} {dl : DeadLetter} (hdl : dl ∈ s.letters) :
    s.letters.find? (fun dl' => dl'.id = dl.id) = some dl := by
  have hsome : (s.letters.find? fun dl' => dl'.id = dl.id).isSome :=
    find?_isSome.mpr ⟨dl, hdl, decide_eq_true rfl⟩
  obtain ⟨dl', hfind⟩ := Option.isSome_iff_exists.mp hsome
  have hid : dl'.id = dl.id := by simpa using find?_some hfind
  rw [hfind, inj_on_of_nodup_map s.nodup (mem_of_find?_eq_some hfind) hdl hid]

/-- A dead letter of the rule is put back on the queue by its id, if nothing fails. -/
theorem dlqRedeliver_publishes (t : Tenant) {s : DLQStore} {dl : DeadLetter}
    (hdl : dl ∈ s.letters) :
    Wp handleDLQ (fun _ f => f = .none)
      (fun _ seen _ => (⟨.publish (dl.requeued t), .ok ()⟩ : Obs DeadLetters) ∈ seen)
      (dlqRedeliver t dl.ruleID 0 (some (some [dl.id]))) [] s := by
  have hget : (handleDLQ (.get dl.id) .none s).1 = .ok dl := by
    simp [handleDLQ, DLQStore.serve, DLQStore.find_of_mem hdl]
  refine Wp.bind_iff.mpr (Wp.bind_iff.mpr (Wp.ask_bind_iff.mpr ?_))
  rintro f rfl
  rw [hget]
  dsimp only
  rw [if_neg (not_not.mpr rfl)]
  refine Wp.bind_iff.mpr (Wp.ask_bind_iff.mpr ?_)
  rintro f rfl
  refine Wp.ask_bind_iff.mpr ?_
  rintro f rfl
  exact mem_cons_of_mem _ mem_cons_self

/-- **Dead letters and collections.** The endpoints under the path of a collection and a rule keep
to the collection if and only if, unless the key is refused, all dead letters of the rule are of the
collection. -/
theorem confined_iff (p : Principal) (collection ruleID : String) (s : DLQStore) :
    Confined p collection ruleID s ↔
      (p.hasScope .admin = true → p.canAccess collection = true →
        ∀ dl ∈ s.letters, dl.ruleID = ruleID → dl.collection = collection) := by
  constructor
  · intro h hscope hmask dl hdl hrule
    -- The dead letter is put back on the queue by its id.
    have hguard := dlqGuard_eq_ok.mpr ⟨hscope, hmask⟩
    have hresp : (DLQRequest.redeliver (some (some [dl.id]))).respond p collection ruleID 0 =
        dlqRedeliver p.tenant dl.ruleID 0 (some (some [dl.id])) := by
      rw [DLQRequest.respond.eq_def, hguard, hrule]
    let oracle : List (Obs DeadLetters) → DLQCall → Fault := fun _ _ => .none
    have hO : ∀ seen c, oracle seen c = .none := fun _ _ => rfl
    have hmem := Wp.exec (C := fun _ f => f = Fault.none) hO (dlqRedeliver_publishes p.tenant hdl)
    rw [← hresp] at hmem
    exact ((h _ 0 oracle).2 _ _ hmem).1
  · intro h req fuel oracle
    cases hguard : dlqGuard p collection with
    | error message =>
      have hresp : req.respond p collection ruleID fuel = .ret (.error 403 message) := by
        rw [DLQRequest.respond.eq_def, hguard]
        rfl
      rw [hresp]
      exact ⟨fun _ _ h => (nomatch h), fun _ _ h => absurd h not_mem_nil⟩
    | ok u =>
      obtain ⟨hscope, hmask⟩ := dlqGuard_eq_ok.mp hguard
      have hstart : Selected p.tenant ruleID s [] s :=
        ⟨List.Subset.refl _, fun _ _ h => absurd h not_mem_nil⟩
      have hwp : Wp handleDLQ (fun _ _ => True)
          (fun resp seen s' => Selected p.tenant ruleID s seen s' ∧ ListsRule ruleID s resp)
          (req.respond p collection ruleID fuel) [] s := by
        rw [DLQRequest.respond.eq_def, hguard]
        cases req with
        | list limit cursor => exact dlqList_wp limit cursor hstart
        | redeliver body => exact dlqRedeliver_wp fuel body hstart
      obtain ⟨hsel, hlists⟩ := Wp.exec (C := fun _ _ => True) (fun _ _ => trivial) hwp
      refine ⟨fun items next hitems dl hdl => ?_, fun task res hmem => ?_⟩
      · obtain ⟨hmem, hrule⟩ := hlists items next hitems dl hdl
        rw [h hscope hmask dl hmem hrule]
        exact ⟨rfl, hmask⟩
      · obtain ⟨dl, hdl, hrule, rfl⟩ := hsel.published task res hmem
        have hcoll : (dl.requeued p.tenant).collection = collection := h hscope hmask dl hdl hrule
        rw [hcoll]
        exact ⟨rfl, hmask⟩

/-- A key whose mask admits the collection of deals only lists a dead letter of the collection of
salaries, whose rule it names in the path, and puts it back on the queue. -/
theorem dead_letter_of_other_collection :
    let p : Principal := ⟨⟨"acme", "", ""⟩, [.admin], ["deals"]⟩
    let dl : DeadLetter := { id := "dlq_1", ruleID := "rule_1", collection := "salaries" }
    let s : DLQStore := { letters := [dl], nodup := nodup_singleton _ }
    let run (req : DLQRequest) := (req.respond p "deals" "rule_1" 1).exec handleDLQ
      (fun _ _ => .none) [] s
    p.canAccess "salaries" = false ∧ (run (.list .absent none)).value = .listed [dl] none ∧
      (run (.redeliver none)).store.queue = [dl.requeued p.tenant] := by
  decide +kernel

end Letopis
