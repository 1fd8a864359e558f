import Letopis.Server.Read
import Letopis.Service.BatchAlone
import Mathlib.Algebra.Order.BigOperators.Group.List

/-!
# What a key can learn

Two databases that agree on the collections that a key admits, and on the activities, give the same
answer to every request of the key that is not for a flow. A flow shows the events of all
collections, so in general they need not give the same answer to a request for a flow. They do
exactly if the key cannot read at all or its mask is everything: no other mask admits every name.
-/

namespace Letopis

open Interleaving List

/-- The request is for a flow. -/
def ReadRequest.isFlow : ReadRequest → Bool
  | .flow .. => true
  | .history .. | .state .. | .collections => false

/-- The databases agree on the collections that the key admits, and on the activities. -/
structure Principal.Agree (p : Principal) (db db' : Database) : Prop where
  coll : ∀ c, p.canAccess c = true → db.coll c = db'.coll c
  activities : db.activities = db'.activities

/-! ### Requests about one collection -/

section Local

variable {srv : Server} {α : Type} {c e : String}

private theorem eval_congr {p : Prog Storage α} (hp : p.Calls fun call => Call.collection call = c)
    {db db' : Db} (h : db c = db' c) : (p.eval (serve srv) db).1 = (p.eval (serve srv) db').1 := by
  rw [Prog.eval_local (serve_eq_serveIn srv) hp, Prog.eval_local (serve_eq_serveIn srv) hp, h]

private theorem ReadHandlers.history_calls {f : EventFilter} {format : HistoryFormat} :
    (ReadHandlers.history c e f format).Calls fun call => Call.collection call = c := by
  refine Prog.calls_ask_bind rfl fun r => ?_
  cases r <;> trivial

private theorem resolveTarget_calls {last : Event} {q : PointInTimeQuery} :
    (resolveTarget c e last q).Calls fun call => Call.collection call = c := by
  unfold resolveTarget
  split
  · trivial
  · refine Prog.calls_ask_bind rfl fun r => ?_
    rcases r with _ | (_ | _) <;> trivial
  · trivial

private theorem anchor_calls {snapshots : Bool} {target : Int} :
    (anchor snapshots c e target).Calls fun call => Call.collection call = c := by
  rw [anchor]
  split_ifs
  · refine Prog.calls_ask_bind rfl fun r => ?_
    cases r <;> trivial
  · trivial

private theorem stateAt_calls {snapshots : Bool} {q : PointInTimeQuery} :
    (stateAt snapshots c e q).Calls fun call => Call.collection call = c := by
  refine Prog.calls_ask_bind rfl fun r => ?_
  rcases r with _ | last
  · trivial
  refine Prog.calls_bind resolveTarget_calls fun r => ?_
  rcases r with _ | target
  · trivial
  refine Prog.calls_bind anchor_calls fun base => ?_
  refine Prog.calls_ask_bind rfl fun r => ?_
  rcases r with _ | tail
  · trivial
  dsimp only
  cases reconstruct base.1 base.2.1 tail <;> trivial

private theorem ReadHandlers.state_calls {snapshots : Bool} {q : Option PointInTimeQuery} :
    (ReadHandlers.state snapshots c e q).Calls fun call => Call.collection call = c := by
  cases q with
  | none =>
    refine Prog.calls_ask_bind rfl fun r => ?_
    cases r <;> trivial
  | some q =>
    refine Prog.calls_bind stateAt_calls fun r => ?_
    rcases r with (_ | _) | _ <;> trivial

end Local

namespace Principal

variable {srv : Server} {snapshots : Bool} {p : Principal} {db db' : Database}

/-- A request about one collection gets past the guard only if the key admits the collection. -/
theorem canAccess_of_pathGuard {c e : String} (h : pathGuard p c e = .ok ()) :
    p.canAccess c = true := by
  rw [pathGuard] at h
  split_ifs at h with _ _ haccess
  simpa using haccess

theorem Agree.listing (h : p.Agree db db') : db.listing p = db'.listing p := by
  have hlist : ∀ d : Database, (d.listCollections.filter fun s => p.canAccess s.name) =
      (d.names.filter fun c => p.canAccess c).map d.summary := fun d => filter_map ..
  rw [Database.listing, Database.listing, hlist, hlist, Database.names_filter_congr h.coll]
  congr 2
  refine map_congr_left fun c hc => ?_
  rw [Database.summary, Database.summary, Database.stats, Database.stats,
    h.coll c (mem_filter.mp hc).2]

/-- What a principal may not see does not show. -/
theorem Agree.respond (h : p.Agree db db') {req : ReadRequest} (hreq : req.isFlow = false) :
    req.respond srv snapshots p db = req.respond srv snapshots p db' := by
  have hdb : ∀ c e, pathGuard p c e = .ok () → db.toDb c = db'.toDb c := by
    intro c e hguard
    rw [Database.toDb, Database.toDb, h.coll c (canAccess_of_pathGuard hguard)]
  unfold ReadRequest.respond
  split_ifs
  · rfl
  cases req with
  | history c e query =>
    dsimp only
    rcases hguard : pathGuard p c e with _ | _
    · rfl
    · rcases query with _ | ⟨f, format⟩
      · rfl
      · exact eval_congr ReadHandlers.history_calls (hdb c e hguard)
  | state c e query =>
    dsimp only
    rcases hguard : pathGuard p c e with _ | _
    · rfl
    · rcases query with _ | q
      · rfl
      · exact eval_congr ReadHandlers.state_calls (hdb c e hguard)
  | collections => exact h.listing
  | flow => exact nomatch hreq

private theorem canAccess_of_mem_star (h : "*" ∈ p.key.collections) (c : String) :
    p.canAccess c = true :=
  any_eq_true.mpr ⟨"*", h, rfl⟩

theorem Agree.eq (h : p.Agree db db') (hall : ∀ c, p.canAccess c = true) :
    db.coll = db'.coll ∧ db.names = db'.names := by
  refine ⟨funext fun c => h.coll c (hall c), ?_⟩
  have hnames := Database.names_filter_congr (q := fun _ => true) fun c _ => h.coll c (hall c)
  rwa [filter_true, filter_true] at hnames

theorem Agree.flow (h : p.Agree db db') (hall : ∀ c, p.canAccess c = true) {flowID : String}
    {limit : NumberParam} {cursor : Option (Option FlowPosition)} :
    db.flow flowID limit cursor = db'.flow flowID limit cursor := by
  obtain ⟨hcoll, hnames⟩ := h.eq hall
  simp only [Database.flow, Database.flowActivities, Database.flowEvents, hcoll, hnames,
    h.activities]

end Principal

/-! ### A flow through a collection that is not admitted -/

/-- A name that is as long as one likes. -/
def longName (n : Nat) : String := String.ofList (List.replicate (n + 1) 'a')

private theorem logicalName_longName (n : Nat) : logicalName (longName n) = true := by
  have hsplit : (List.replicate (n + 1) 'a').splitOn '.' = [List.replicate (n + 1) 'a'] :=
    splitOnP_eq_singleton fun c hc => by simp [eq_of_mem_replicate hc]
  have hchar : isLogicalChar 'a' = true := by decide
  rw [logicalName, longName, String.toList_ofList, hsplit]
  simp [hchar]

/-- A pattern that is not everything does not match a name that is longer than it. -/
theorem matchPattern_longName {pat : String} {n : Nat} (hstar : pat ≠ "*")
    (hlen : pat.toList.length ≤ n) : matchPattern pat (longName n) = false := by
  have hname : (longName n).toList = List.replicate (n + 1) 'a' := String.toList_ofList ..
  have hlong : ∀ l : List Char, l.length ≤ n → (longName n).toList ≠ l := by
    rintro l hl rfl
    rw [hname, length_replicate] at hl
    omega
  rw [matchPattern, if_neg hstar]
  split_ifs
  · have hdot : ∀ stem : List Char, ¬ stem ++ ['.'] <+: (longName n).toList := by
      intro stem h
      have hmem : '.' ∈ (longName n).toList := h.subset (by simp)
      rw [hname] at hmem
      exact absurd (eq_of_mem_replicate hmem) (by decide)
    have hstem := hlong (pat.toList.take (pat.toList.length - 2))
      ((length_take_le' ..).trans hlen)
    simp [hdot, hstem]
  · simpa using fun h : pat = longName n => hlong _ hlen (congrArg String.toList h.symm)

private theorem exists_not_canAccess {p : Principal} (h : "*" ∉ p.key.collections) :
    ∃ c, logicalName c = true ∧ p.canAccess c = false := by
  let n := (p.key.collections.map fun pat => pat.toList.length).sum
  refine ⟨longName n, logicalName_longName n, any_eq_false.mpr fun pat hpat => ?_⟩
  have hlen : pat.toList.length ≤ n :=
    le_sum_of_mem (mem_map_of_mem (f := fun pat : String => pat.toList.length) hpat)
  rw [matchPattern_longName (fun heq => h (heq ▸ hpat)) hlen]
  decide

/-- An event of a flow. -/
def flowedEvent : Event :=
  { entityID := "e", version := 1, op := .create, flow := some { id := "f" } }

/-- A collection with that event. -/
def flowed : CollData := { events := some [flowedEvent] }

private theorem flow_single {c : String} (hc : logicalName c = true) :
    (Database.single c hc flowed rfl).flow "f" .absent none =
      .flow "f" [.event c "e" 1 .create .zero none []] none := by
  have hevents : (Database.single c hc flowed rfl).flowEvents "f" = [⟨c, flowedEvent⟩] := by
    rw [Database.flowEvents]
    simp only [Database.single, flatMap_cons, flatMap_nil, append_nil]
    rw [Function.update_self]
    rfl
  have hact : (Database.single c hc flowed rfl).flowActivities "f" = [] := rfl
  unfold Database.flow
  rw [if_neg (by decide), hevents, hact]
  rfl

/-- A key that does not admit the collection cannot tell from its collections that it is there. -/
theorem agree_single {p : Principal} {c : String} (hc : logicalName c = true) (d : CollData)
    (hd : d.present = true) (h : p.canAccess c = false) :
    p.Agree Database.empty (Database.single c hc d hd) where
  coll c' hc' := by
    have hne : c' ≠ c := by
      rintro rfl
      exact Bool.noConfusion (h.symm.trans hc')
    exact (Function.update_of_ne hne ..).symm
  activities := rfl

/-! ### The mask -/

/-- **A key learns nothing of what its mask leaves out**, flows apart. With flows, exactly if it
cannot read or its mask is everything. -/
theorem mask_confines_iff (srv : Server) (snapshots : Bool) (p : Principal) :
    (∀ req : ReadRequest, req.isFlow = false → ∀ db db', p.Agree db db' →
      req.respond srv snapshots p db = req.respond srv snapshots p db') ∧
    ((∀ (req : ReadRequest) (db db' : Database), p.Agree db db' →
        req.respond srv snapshots p db = req.respond srv snapshots p db') ↔
      (p.hasScope .read = true → "*" ∈ p.key.collections)) := by
  refine ⟨fun req hreq db db' h => h.respond hreq, ?_, ?_⟩
  · intro hall hread
    by_contra hstar
    obtain ⟨c, hc, hno⟩ := exists_not_canAccess hstar
    have heq := hall (.flow "f" .absent none) _ _ (agree_single hc flowed rfl hno)
    simp only [ReadRequest.respond, hread] at heq
    exact nomatch heq.trans (flow_single hc)
  · intro hstar req db db' h
    by_cases hread : p.hasScope .read = true
    · have hadmits := Principal.canAccess_of_mem_star (hstar hread)
      cases req with
      | flow flowID limit cursor => simp only [ReadRequest.respond, h.flow hadmits]
      | history | state | collections => exact h.respond rfl
    · simp [ReadRequest.respond, hread]

/-- A key for the orders reads the name, the entity and the operation of an event about salaries
from the flow that it belongs to. -/
theorem flow_shows_other_collection :
    ∃ (p : Principal) (db db' : Database), p.key = ⟨[.read], ["orders"]⟩ ∧ p.Agree db db' ∧
      (ReadRequest.flow "f" .absent none).respond .mongo true p db = .flow "f" [] none ∧
      (ReadRequest.flow "f" .absent none).respond .mongo true p db' =
        .flow "f" [.event "salaries" "e" 1 .create .zero none []] none := by
  have hc : logicalName "salaries" = true := by decide
  exact ⟨⟨{ id := "t" }, ⟨[.read], ["orders"]⟩⟩, .empty, .single "salaries" hc flowed rfl, rfl,
    agree_single hc flowed rfl (by decide), rfl, flow_single hc⟩

end Letopis
