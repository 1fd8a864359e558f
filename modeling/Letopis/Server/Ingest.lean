import Letopis.Domain.Collection
import Letopis.ForMathlib.Except
import Letopis.Service.Planned

/-!
# The write endpoints

A write comes in at one of the endpoints for a state, a diff or a delete, or as one of the events
of a batch. What is modelled is the way from the decoded body to the command for the use-case, with
the message of the first check that fails. `LetThrough` are the commands that come out.

Every diff command without a change list is a create or a delete by the client's word
(`LetThrough.op_of_no_changes`). The event planned for a command replays to the state planned for
it, except for two kinds of commands (`Faithful`): a state sent as a delete, and a create with a
state over an entity that has further entries (`reconstruct_returned_iff`).
-/

namespace Letopis

/-! ### Bodies -/

/-- The wire form of a change. -/
structure ChangeInput where
  path : String
  op : String
  old : Json := .null
  new : Json := .null

/-- The wire form of a cause. -/
structure FlowRefInput where
  activityID : String := ""
  /-- The collection of a referenced event. -/
  collection : String := ""
  entityID : String := ""
  /-- The version of a referenced event, if there is one. -/
  version : Option Int := none
  /-- The client's id of a referenced event. -/
  eventID : String := ""

/-- The wire form of the flow block. -/
structure FlowBlockInput where
  flowID : String := ""
  causedBy : List FlowRefInput := []
  step : String := ""

/-- The body shared by the write endpoints. -/
structure IngestRequest where
  eventID : String := ""
  /-- The lifecycle transition; empty if the client states none. -/
  op : String := ""
  /-- The optimistic lock, if there is one. -/
  expectedVersion : Option Int := none
  authorID : String := ""
  /-- When the source observed it, if it says so. -/
  tsSource : Option Time := none
  source : String := ""
  metadata : Fields := []
  flow : Option FlowBlockInput := none
  state : Option Fields := none
  changes : Option (List ChangeInput) := none

/-- What comes with a request besides its body. -/
structure RequestInfo where
  idempotencyKey : String := ""
  mode : String := ""
  requestID : String := ""
  clientIP : String := ""

/-! ### Checks -/

/-- The lifecycle transition that the client states. -/
def parseOpE (op : String) : Except String (Option EntityOp) :=
  if op = "" then .ok none
  else if op = "create" then .ok (some .create)
  else if op = "update" then .ok (some .update)
  else if op = "delete" then .ok (some .delete)
  else .error ("invalid op " ++ op ++ " (want create, update or delete)")

/-- The reliability mode that the client asks for. -/
def parseMode (v : String) : Except String (Option ReliabilityMode) :=
  if v = "" then .ok none
  else if v = "strict" then .ok (some .strict)
  else if v = "durable" then .ok (some .durable)
  else if v = "fast" then .ok (some .fast)
  else .error "invalid X-Letopis-Mode (want strict, durable or fast)"

/-- The kinds of edit by their names. -/
def changeOps (op : String) : Option ChangeOp :=
  if op = "add" then some .add
  else if op = "change" then some .change
  else if op = "remove" then some .remove
  else none

/-- Convert the change list. -/
def mapChangesE (input : List ChangeInput) : Except String (List Change) :=
  input.mapM fun c =>
    match changeOps c.op with
    | none => .error ("invalid change op " ++ c.op ++ " (want add, change or remove)")
    | some op => .ok ⟨c.path, op, c.old, c.new⟩

/-- Convert the causes. Each must name an activity or an entity. -/
def mapFlowRefsE (input : List FlowRefInput) : Except String (List FlowRef) :=
  input.mapM fun r =>
    if r.activityID = "" ∧ (r.collection = "" ∨ r.entityID = "") then
      .error "flow ref must have activity_id or collection+entity_id"
    else .ok { activityID := r.activityID, collection := r.collection, entityID := r.entityID,
               version := r.version.getD 0, eventID := r.eventID }

/-- Convert the flow block. -/
def mapFlowBlockE : Option FlowBlockInput → Except String (Option Flow)
  | none => .ok none
  | some input => do
    let causedBy ← mapFlowRefsE input.causedBy
    return some { id := input.flowID, causedBy, step := input.step }

/-- Convert the change list, if there is one. -/
def IngestRequest.mapChanges (req : IngestRequest) : Except String (Option (List Change)) :=
  match req.changes with
  | none => .ok none
  | some input => (mapChangesE input).map some

/-! ### Commands -/

/-- Map the shared fields and the change list into a command. -/
def buildCommand (r : RequestInfo) (collection entityID : String) (req : IngestRequest)
    (op : Option EntityOp) : Except String IngestCommand := do
  let _mode ← parseMode r.mode
  let flow ← mapFlowBlockE req.flow
  let changes ← req.mapChanges
  return { collection, entityID, op, expectedVersion := req.expectedVersion,
           author := req.authorID, source := req.source, tsSource := req.tsSource.getD .zero,
           eventID := if req.eventID = "" then r.idempotencyKey else req.eventID,
           requestID := r.requestID, clientIP := r.clientIP, metadata := req.metadata,
           changes, flow }

namespace IngestHandlers

variable (r : RequestInfo) (collection entityID : String) (req : IngestRequest)

/-- `POST …/state`: a state is required. -/
def state : Except String IngestCommand := do
  let op ← parseOpE req.op
  match req.state with
  | none => .error "state is required"
  | some s =>
    let cmd ← buildCommand r collection entityID req op
    return { cmd with state := s }

/-- `POST …/diff`: a create may carry a full state instead of a diff, a delete needs neither, and
everything else must bring a change list. -/
def diff : Except String IngestCommand := do
  let op ← parseOpE req.op
  let cmd ← buildCommand r collection entityID req op
  match op, req.state with
  | some .create, some s => return { cmd with state := s }
  | some .delete, _ => return cmd
  | _, _ => if cmd.changes = none then .error "changes is required" else return cmd

/-- `POST …/delete`: the transition is fixed. -/
def delete : Except String IngestCommand :=
  if req.op ≠ "" ∧ req.op ≠ "delete" then
    .error ("delete endpoint does not accept op " ++ req.op)
  else buildCommand r collection entityID req (some .delete)

end IngestHandlers

/-- The kinds of the events of a batch by their names. -/
def batchKinds (type : String) : Option Kind :=
  if type = "state" then some .state
  else if type = "diff" then some .diff
  else if type = "delete" then some .delete
  else none

/-- Map one event of a batch into a command, with the rules of its kind. -/
def buildBatchCommand (collection entityID : String) (req : IngestRequest) (kind : Kind)
    (requestID clientIP : String) : Except String IngestCommand := do
  let op ← parseOpE req.op
  let flow ← mapFlowBlockE req.flow
  let cmd : IngestCommand :=
    { collection, entityID, op, expectedVersion := req.expectedVersion, author := req.authorID,
      source := req.source, tsSource := req.tsSource.getD .zero, eventID := req.eventID,
      requestID, clientIP, metadata := req.metadata, flow }
  match kind with
  | .state =>
    match req.state with
    | none => .error "state is required"
    | some s => return { cmd with state := s }
  | .diff =>
    let changes ← req.mapChanges
    match op, req.state with
    | some .create, some s => return { cmd with changes, state := s }
    | some .delete, _ => return { cmd with changes }
    | _, _ => if changes = none then .error "changes is required" else return { cmd with changes }
  | .delete =>
    if req.op ≠ "" ∧ req.op ≠ "delete" then
      .error ("delete item does not accept op " ++ req.op)
    else return { cmd with op := some .delete }
  | .other _ => return cmd

/-- The commands that the write endpoints let through. -/
inductive LetThrough : Kind → IngestCommand → Prop where
  | state {r c e req cmd} (h : IngestHandlers.state r c e req = .ok cmd) : LetThrough .state cmd
  | diff {r c e req cmd} (h : IngestHandlers.diff r c e req = .ok cmd) : LetThrough .diff cmd
  | delete {r c e req cmd} (h : IngestHandlers.delete r c e req = .ok cmd) :
    LetThrough .delete cmd
  | batch {c e type req kind requestID clientIP cmd} (hkind : batchKinds type = some kind)
    (h : buildBatchCommand c e req kind requestID clientIP = .ok cmd) : LetThrough kind cmd

/-! ### What is let through -/

private theorem buildCommand_op {r : RequestInfo} {c e : String} {req : IngestRequest}
    {op : Option EntityOp} {cmd : IngestCommand} (h : buildCommand r c e req op = .ok cmd) :
    cmd.op = op := by
  obtain ⟨_, -, h⟩ := Except.bind_eq_ok_iff.mp h
  obtain ⟨_, -, h⟩ := Except.bind_eq_ok_iff.mp h
  obtain ⟨_, -, h⟩ := Except.bind_eq_ok_iff.mp h
  cases h
  rfl

theorem LetThrough.op_of_no_changes {cmd : IngestCommand} (h : LetThrough .diff cmd)
    (hnone : cmd.changes = none) : cmd.op = some .create ∨ cmd.op = some .delete := by
  cases h with
  | diff h =>
    obtain ⟨op, -, h⟩ := Except.bind_eq_ok_iff.mp h
    obtain ⟨cmd', hcmd', h⟩ := Except.bind_eq_ok_iff.mp h
    have hop := buildCommand_op hcmd'
    split at h
    · cases h
      exact .inl hop
    · cases h
      exact .inr hop
    · split_ifs at h with hchanges
      cases h
      exact absurd hnone hchanges
  | batch _ h =>
    obtain ⟨op, -, h⟩ := Except.bind_eq_ok_iff.mp h
    obtain ⟨flow, -, h⟩ := Except.bind_eq_ok_iff.mp h
    obtain ⟨changes, -, h⟩ := Except.bind_eq_ok_iff.mp h
    split at h
    · cases h
      exact .inl rfl
    · cases h
      exact .inr rfl
    · split_ifs at h with hchanges
      cases h
      exact absurd hnone hchanges

/-! ### The planned event replays to the planned state -/

/-- The command means the same to planning and to a replay: a full state is not sent as a delete,
and one that is sent for a create has all entries of the entity, if there is one. -/
def Faithful (kind : Kind) (cmd : IngestCommand) (cur : Option CurrentState) : Prop :=
  match kind with
  | .state => cmd.op ≠ some .delete
  | .diff => cmd.op = some .create → cmd.changes = none → Covers cmd.state (baseState cur).1
  | .delete | .other _ => True

section Faithful

variable {received : Time} {cfg : CollectionConfig} {kind : Kind} {cmd : IngestCommand}
  {cur : Option CurrentState} {planned ev : Event} {newState : Fields} {deleted : Bool}

/-- **Planning and replay agree.** Without configured array keys, and where no change list leads
into a value that it has put in: for every command that the endpoints let through, the replay of
the planned event from the current state gives the planned state and flag exactly if the command is
faithful. -/
theorem reconstruct_returned_iff (hkeys : cfg.arrayKeys = []) (hlet : LetThrough kind cmd)
    (hcur : (Json.obj (lastState cur).1).Regular) (hstate : (Json.obj cmd.state).Regular)
    (hoff : KeepsOffList kind cmd cur)
    (hplan : planEvent received cfg kind cmd cur = .ok (.write planned newState deleted)) :
    (∀ ev, Returned kind cmd cur planned ev →
      reconstruct (lastState cur).1 (lastState cur).2 [ev] = .ok (newState, deleted)) ↔
      Faithful kind cmd cur := by
  have hbase : (Json.obj (baseState cur).1).Regular := by
    rw [← workOf_lastState]
    exact regular_workOf hcur
  have hone (ev : Event) : reconstruct (lastState cur).1 (lastState cur).2 [ev] =
      replayStep (lastState cur).1 (lastState cur).2 ev :=
    reconstruct_concat (reconstruct_nil _ _) ev
  simp only [returned_iff hbase.wf hoff hplan, forall_eq, hone]
  cases kind with
  | state =>
    obtain ⟨rfl, rfl, hop, hchanges⟩ := planEvent_state hplan
    rw [← workOf_lastState] at hchanges
    constructor
    · intro hreplay hdelete
      rw [hdelete] at hop
      simp [replayStep_delete hop] at hreplay
    · intro hfaith
      have hopts : (DiffOptions.mk cfg.arrayKeys).arrayKeys = [] := hkeys
      exact replayStep_diff hopts (hop ▸ resolveOp_ne_delete hfaith) hchanges
        (regular_workOf hcur) hstate
  | diff =>
    obtain ⟨hop, hdiff⟩ := planEvent_diff hplan
    cases hdiff with
    | delete hdel =>
      have hne : cmd.op ≠ some .create := fun h => by simp [h, resolveOp, hdel] at hop
      rw [replayStep_delete hdel, workOf_lastState]
      simp [Faithful, hne]
    | create hcreate hnone hchanges =>
      -- by the endpoints it is the client who asks for the create
      have hcmd : cmd.op = some .create := by
        refine (hlet.op_of_no_changes hnone).resolve_right fun h => ?_
        simp [h, resolveOp, hcreate] at hop
      rw [replayStep, if_neg (by simp [hcreate]), hchanges, apply_diff_empty _ hstate,
        workOf_lastState]
      have hcov := overlay_eq_iff (Json.regular_obj_iff.mp hbase).1
        (Json.regular_obj_iff.mp hstate).1
      simp [Faithful, hcmd, hnone, Except.map, Json.asFields, hcov]
    | apply hdel hsome hchanges happly =>
      rw [replayStep, if_neg hdel, workOf_lastState, hchanges, happly]
      simp [Faithful, hsome, Except.map, Json.asFields]
  | delete =>
    obtain ⟨rfl, rfl, hop⟩ := planEvent_delete hplan
    simp only [Faithful, iff_true]
    rw [replayStep_delete hop, workOf_lastState]
  | other name => cases hplan

/-- A diff for a live entity, through the endpoint, planned and replayed. -/
theorem reconstruct_returned_iff_paid :
    let cur : CurrentState := ⟨"o-1", 1, .zero, false, [("paid", .bool false)]⟩
    let req : IngestRequest :=
      { op := "update", changes := some [⟨"paid", "change", .bool false, .bool true⟩] }
    ∃ cmd planned, IngestHandlers.diff {} "orders" "o-1" req = .ok cmd ∧
      planEvent .zero {} .diff cmd (some cur) =
        .ok (.write planned [("paid", .bool true)] false) ∧
      ((∀ ev, Returned .diff cmd (some cur) planned ev →
        reconstruct cur.state false [ev] = .ok ([("paid", .bool true)], false)) ↔
        Faithful .diff cmd (some cur)) := by
  intro cur req
  have hcmd : IngestHandlers.diff {} "orders" "o-1" req = .ok
      { collection := "orders", entityID := "o-1", op := some .update,
        changes := some [⟨"paid", .change, .bool false, .bool true⟩] } := by rfl
  refine ⟨_, _, hcmd, by rfl, ?_⟩
  exact reconstruct_returned_iff rfl (.diff hcmd) ⟨by decide, by decide⟩ ⟨by decide, by decide⟩
    (fun _ _ chs hchs => by cases hchs; decide) (by rfl)

/-- A state that is sent as a delete, and a state for a create over an entity with another entry:
the endpoints let both through, and the replay of the planned event gives something else than what
was planned. -/
theorem unfaithful_writes :
    let cur : CurrentState := ⟨"o-1", 1, .zero, false, [("draft", .bool true)]⟩
    let paid : Fields := [("paid", .bool true)]
    (∃ cmd ev, IngestHandlers.state {} "orders" "o-1" { op := "delete", state := some paid } =
        .ok cmd ∧
      planEvent .zero {} .state cmd none = .ok (.write ev paid false) ∧
      reconstruct [] false [ev] = .ok ([], true)) ∧
    ∃ cmd ev, IngestHandlers.diff {} "orders" "o-1" { op := "create", state := some paid } =
        .ok cmd ∧
      planEvent .zero {} .diff cmd (some cur) = .ok (.write ev paid false) ∧
      reconstruct cur.state cur.deleted [ev] =
        .ok ([("draft", .bool true), ("paid", .bool true)], false) := by
  refine ⟨⟨_, _, rfl, rfl, by rfl⟩, _, _, rfl, rfl, by rfl⟩

end Faithful

end Letopis
