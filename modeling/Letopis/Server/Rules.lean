import Mathlib.Logic.Function.Basic
import Letopis.ForMathlib.Except
import Letopis.Storage.Rules

/-!
# Conditions on the wire

A request has the condition of a rule as JSON, in which a leaf is written with its operator as the
key of the operand. Operands stay raw until the operator is known, so that an operand null is told
from none. A response has the same form. What is modelled is the way from the decoded request to the
condition, from the condition to the response, and the decoding of such a response as a request.

A condition that was requested is what a client reads from the response, and what the engine reads
from the database holds for the same events (`condition_round_trips`).
-/

namespace Letopis

open List

/-- `encoding/json`, as far as operands are concerned: raw messages and their values. A raw message
can be one without a value, such as a number that is too large. -/
structure Wire (F : Type) where
  Raw : Type
  marshal : Any F → Raw
  unmarshal : Raw → Option (Any F)
  /-- A value that was decoded is encoded without loss. -/
  unmarshal_marshal {raw : Raw} {v : Any F} (h : unmarshal raw = some v) :
    unmarshal (marshal v) = some v

/-- The wire form of a leaf on the changes. -/
structure MatchDTO (Raw : Type) where
  path : String := ""
  op : String := ""
  /-- The value before, if the member is there. -/
  old : Option Raw := none
  /-- The value after, if the member is there. -/
  new : Option Raw := none

/-- A node of a condition in a request. -/
structure ConditionDTO (Raw : Type) where
  all : Option (List (ConditionDTO Raw)) := none
  any : Option (List (ConditionDTO Raw)) := none
  not : Option (ConditionDTO Raw) := none
  field : String := ""
  operand : RuleOp → Option Raw := fun _ => none
  onMatch : Option (MatchDTO Raw) := none

@[elab_as_elim]
theorem ConditionDTO.induction {Raw : Type} {P : ConditionDTO Raw → Prop}
    (node : ∀ d : ConditionDTO Raw, (∀ ds ∈ d.all, ∀ e ∈ ds, P e) →
      (∀ ds ∈ d.any, ∀ e ∈ ds, P e) → (∀ e ∈ d.not, P e) → P d) (d : ConditionDTO Raw) : P d :=
  @ConditionDTO.rec Raw P (fun o => ∀ ds ∈ o, ∀ e ∈ ds, P e) (fun o => ∀ e ∈ o, P e)
    (fun ds => ∀ e ∈ ds, P e)
    (fun _ _ _ _ _ _ hall hany hnot => node _ hall hany hnot)
    (by simp) (fun ds h => by simpa using h) (by simp) (fun e h => by simpa using h)
    (by simp) (fun e ds he hds => by simpa using ⟨he, hds⟩) d

section Request

variable {F : Type} (wire : Wire F)

/-! ### Requests -/

/-- Decode an operand. -/
def decodeAny (raw : wire.Raw) : Except String (Any F) :=
  match wire.unmarshal raw with
  | some v => .ok v
  | none => .error "invalid condition value"

/-- The leaf on a scalar field: the first of some operators whose member is there. -/
def scalarFrom (d : ConditionDTO wire.Raw) : List RuleOp → Except String (Condition F)
  -- without an operator, which compiling reports
  | [] => .ok { field := d.field }
  | op :: ops =>
    match d.operand op with
    | none => scalarFrom d ops
    | some raw =>
      if op = .opExists then .ok { field := d.field, op := op.name }
      else (decodeAny wire raw).map fun v => { field := d.field, op := op.name, value := v }

/-- The leaf on a scalar field. -/
def toScalar (d : ConditionDTO wire.Raw) : Except String (Condition F) :=
  scalarFrom wire d RuleOp.all

/-- The leaf on the changes, with its values decoded. -/
def toMatch (d : MatchDTO wire.Raw) : Except String (Match F) := do
  let old ← d.old.mapM (decodeAny wire)
  let new ← d.new.mapM (decodeAny wire)
  return ⟨d.path, d.op, old.getD .null, new.getD .null, old.isSome, new.isSome⟩

mutual

/-- The condition of a request. -/
def toCondition : ConditionDTO wire.Raw → Except String (Condition F)
  | ⟨all, any, not, field, operand, onMatch⟩ =>
    match all, any, not, onMatch with
    | some ds, _, _, _ => (toConditions ds).map fun cs => { all := some cs }
    | none, some ds, _, _ => (toConditions ds).map fun cs => { any := some cs }
    | none, none, some d, _ => (toCondition d).map fun c => { not := some c }
    | none, none, none, some m => (toMatch wire m).map fun m => { onMatch := some m }
    | none, none, none, none => toScalar wire { field, operand }

/-- The conditions of a list. -/
def toConditions : List (ConditionDTO wire.Raw) → Except String (List (Condition F))
  | [] => .ok []
  | d :: ds => do
    let c ← toCondition d
    let cs ← toConditions ds
    return c :: cs

end

/-! ### Responses -/

/-- Render a leaf on a scalar field. -/
def scalarResponse (field op : String) (value : Any F) : List (String × Any F) :=
  let out := [("field", .str field)]
  if op = RuleOp.opExists.name then SortedAssoc.insert "exists" (.bool true) out
  else if op ≠ "" then SortedAssoc.insert op value out
  else out

/-- Render a leaf on the changes. -/
def matchResponse (m : Match F) : List (String × Any F) :=
  let out := [("path", .str m.path)]
  let out := if m.op ≠ "" then SortedAssoc.insert "op" (.str m.op) out else out
  let out := if m.hasOld then SortedAssoc.insert "old" m.old out else out
  if m.hasNew then SortedAssoc.insert "new" m.new out else out

mutual

/-- A condition in a response. -/
def conditionResponse : Condition F → Any F
  | ⟨all, any, not, field, op, value, onMatch⟩ =>
    match all, any, not, onMatch with
    | some cs, _, _, _ => .map [("all", .slice (conditionsResponse cs))]
    | none, some cs, _, _ => .map [("any", .slice (conditionsResponse cs))]
    | none, none, some c, _ => .map [("not", conditionResponse c)]
    | none, none, none, some m =>
      .map [("field", .str "changes"), ("match", .map (matchResponse m))]
    | none, none, none, none => .map (scalarResponse field op value)

/-- Render the conditions of a list. -/
def conditionsResponse : List (Condition F) → List (Any F)
  | [] => []
  | c :: cs => conditionResponse c :: conditionsResponse cs

end

/-! ### Decoding a response as a request -/

/-- Decode a member of type string; null leaves it alone. -/
def stringMember : Any F → String → Option String
  | .null, s => some s
  | .str s, _ => some s
  | _, _ => none

/-- Decode the members of a leaf on the changes. No other members are allowed. -/
def MatchDTO.setMembers : List (String × Any F) → MatchDTO wire.Raw → Option (MatchDTO wire.Raw)
  | [], d => some d
  | (key, v) :: kvs, d =>
    if key = "path" then (stringMember v d.path).bind fun s => setMembers kvs { d with path := s }
    else if key = "op" then (stringMember v d.op).bind fun s => setMembers kvs { d with op := s }
    else if key = "old" then setMembers kvs { d with old := some (wire.marshal v) }
    else if key = "new" then setMembers kvs { d with new := some (wire.marshal v) }
    else none

/-- Decode a pointer to a leaf on the changes. -/
def MatchDTO.decodePointer : Any F → Option (Option (MatchDTO wire.Raw))
  | .null => some none
  | .map kvs => (setMembers wire kvs {}).map some
  | _ => none

namespace ConditionDTO

mutual

/-- Decode the JSON of a node. -/
def decode : Any F → Option (ConditionDTO wire.Raw)
  | .null => some {}
  | .map kvs => setMembers kvs {}
  | _ => none

/-- Decode the members of a node. No other members are allowed. -/
def setMembers : List (String × Any F) → ConditionDTO wire.Raw → Option (ConditionDTO wire.Raw)
  | [], d => some d
  | (key, v) :: kvs, d =>
    if key = "all" then (decodeSlice v).bind fun s => setMembers kvs { d with all := s }
    else if key = "any" then (decodeSlice v).bind fun s => setMembers kvs { d with any := s }
    else if key = "not" then (decodePointer v).bind fun n => setMembers kvs { d with not := n }
    else if key = "field" then
      (stringMember v d.field).bind fun s => setMembers kvs { d with field := s }
    else if key = "match" then
      (MatchDTO.decodePointer wire v).bind fun m => setMembers kvs { d with onMatch := m }
    else
      match RuleOp.ofName? key with
      | some op => setMembers kvs
        { d with operand := Function.update d.operand op (some (wire.marshal v)) }
      | none => none

/-- Decode a slice of nodes; null is nil. -/
def decodeSlice : Any F → Option (Option (List (ConditionDTO wire.Raw)))
  | .null => some none
  | .slice vs => (decodeList vs).map some
  | _ => none

/-- Decode a list of nodes. -/
def decodeList : List (Any F) → Option (List (ConditionDTO wire.Raw))
  | [] => some []
  | v :: vs => (decode v).bind fun d => (decodeList vs).map (d :: ·)

/-- Decode a pointer to a node. -/
def decodePointer : Any F → Option (Option (ConditionDTO wire.Raw))
  | .null => some none
  | .map kvs => (setMembers kvs {}).map some
  | _ => none

end

end ConditionDTO

end Request

/-! ### What was requested -/

section RoundTrip

variable {F : Type} {wire : Wire F}

/-- The operand was decoded from a request. -/
def Wire.Sent (wire : Wire F) (v : Any F) : Prop := ∃ raw, wire.unmarshal raw = some v

/-- The operand was decoded from a request if it is compared, and is nil otherwise. -/
def Wire.SentIf (wire : Wire F) (compared : Bool) (v : Any F) : Prop :=
  if compared then wire.Sent v else v = .null

/-- The forms of conditions that come out of requests. -/
inductive Requested (wire : Wire F) : Condition F → Prop
  | all {cs : List (Condition F)} (h : ∀ c ∈ cs, Requested wire c) :
    Requested wire { all := some cs }
  | any {cs : List (Condition F)} (h : ∀ c ∈ cs, Requested wire c) :
    Requested wire { any := some cs }
  | not {c : Condition F} (h : Requested wire c) : Requested wire { not := some c }
  | onMatch {m : Match F} (hold : wire.SentIf m.hasOld m.old) (hnew : wire.SentIf m.hasNew m.new) :
    Requested wire { onMatch := some m }
  | bare (field : String) : Requested wire { field }
  | present (field : String) : Requested wire { field, op := RuleOp.opExists.name }
  | scalar (field : String) {op : RuleOp} {v : Any F} (hop : op ≠ .opExists) (hv : wire.Sent v) :
    Requested wire { field, op := op.name, value := v }

theorem decodeAny_eq_ok {raw : wire.Raw} {v : Any F} :
    decodeAny wire raw = .ok v ↔ wire.unmarshal raw = some v := by
  rw [decodeAny]
  cases wire.unmarshal raw <;> simp

private theorem requested_of_scalarFrom {d : ConditionDTO wire.Raw} {ops : List RuleOp}
    {c : Condition F} (h : scalarFrom wire d ops = .ok c) : Requested wire c := by
  induction ops with
  | nil =>
    cases h
    exact .bare d.field
  | cons op ops ih =>
    rw [scalarFrom] at h
    cases hraw : d.operand op with
    | none => exact ih (by rwa [hraw] at h)
    | some raw =>
      simp only [hraw] at h
      split_ifs at h with hop
      · cases h
        rw [hop]
        exact .present d.field
      · obtain ⟨v, hv, rfl⟩ := Except.map_eq_ok_iff.mp h
        exact .scalar d.field hop ⟨raw, decodeAny_eq_ok.mp hv⟩

private theorem sentIf_of_mapM {o : Option wire.Raw} {v : Option (Any F)}
    (h : o.mapM (decodeAny wire) = .ok v) : wire.SentIf v.isSome (v.getD .null) := by
  cases o with
  | none =>
    cases h
    rfl
  | some raw =>
    obtain ⟨w, hw, rfl⟩ := Except.map_eq_ok_iff.mp h
    exact ⟨raw, decodeAny_eq_ok.mp hw⟩

private theorem requested_of_toMatch {d : MatchDTO wire.Raw} {m : Match F}
    (h : toMatch wire d = .ok m) : Requested wire { onMatch := some m } := by
  obtain ⟨old, hold, h⟩ := Except.bind_eq_ok_iff.mp h
  obtain ⟨new, hnew, h⟩ := Except.bind_eq_ok_iff.mp h
  cases h
  exact .onMatch (sentIf_of_mapM hold) (sentIf_of_mapM hnew)

private theorem requested_of_toConditions {ds : List (ConditionDTO wire.Raw)}
    {cs : List (Condition F)} (ih : ∀ d ∈ ds, ∀ c, toCondition wire d = .ok c → Requested wire c)
    (h : toConditions wire ds = .ok cs) : ∀ c ∈ cs, Requested wire c := by
  induction ds generalizing cs with
  | nil =>
    cases h
    exact fun c hc => absurd hc not_mem_nil
  | cons d ds ihs =>
    obtain ⟨hd, hds⟩ := forall_mem_cons.mp ih
    obtain ⟨c, hc, h⟩ := Except.bind_eq_ok_iff.mp h
    obtain ⟨cs, hcs, h⟩ := Except.bind_eq_ok_iff.mp h
    cases h
    exact forall_mem_cons.mpr ⟨hd c hc, ihs hds hcs⟩

private theorem requested_of_toCondition {d : ConditionDTO wire.Raw} {c : Condition F}
    (h : toCondition wire d = .ok c) : Requested wire c := by
  induction d using ConditionDTO.induction generalizing c with
  | node d hall hany hnot =>
    obtain ⟨all, any, not, field, operand, onMatch⟩ := d
    cases all with
    | some ds =>
      obtain ⟨cs, hcs, rfl⟩ := Except.map_eq_ok_iff.mp h
      exact .all (requested_of_toConditions (fun e he c hc => hall ds rfl e he hc) hcs)
    | none =>
      cases any with
      | some ds =>
        obtain ⟨cs, hcs, rfl⟩ := Except.map_eq_ok_iff.mp h
        exact .any (requested_of_toConditions (fun e he c hc => hany ds rfl e he hc) hcs)
      | none =>
        cases not with
        | some d =>
          obtain ⟨c, hc, rfl⟩ := Except.map_eq_ok_iff.mp h
          exact .not (hnot d rfl hc)
        | none =>
          cases onMatch with
          | some m =>
            obtain ⟨m, hm, rfl⟩ := Except.map_eq_ok_iff.mp h
            exact requested_of_toMatch hm
          | none => exact requested_of_scalarFrom h

/-! ### What is returned -/

/-- The response is decoded as a request for the same condition. -/
def Returns (wire : Wire F) (c : Condition F) : Prop :=
  ∃ d, ConditionDTO.decode wire (conditionResponse c) = some d ∧ toCondition wire d = .ok c

theorem Returns.list {cs : List (Condition F)} (h : ∀ c ∈ cs, Returns wire c) :
    ∃ ds, ConditionDTO.decodeList wire (conditionsResponse cs) = some ds ∧
      toConditions wire ds = .ok cs := by
  induction cs with
  | nil => exact ⟨[], rfl, rfl⟩
  | cons c cs ih =>
    obtain ⟨⟨d, hd, hc⟩, hcs⟩ := forall_mem_cons.mp h
    obtain ⟨ds, hds, hcs⟩ := ih hcs
    refine ⟨d :: ds, ?_, ?_⟩
    · rw [conditionsResponse, ConditionDTO.decodeList, hd, hds]
      rfl
    · rw [toConditions, hc, hcs]
      rfl

private theorem exists_conditionResponse (c : Condition F) :
    ∃ kvs, conditionResponse c = .map kvs := by
  obtain ⟨all, any, not, field, op, value, onMatch⟩ := c
  cases all <;> cases any <;> cases not <;> cases onMatch <;> exact ⟨_, rfl⟩

private theorem decodePointer_conditionResponse (c : Condition F) :
    ConditionDTO.decodePointer wire (conditionResponse c) =
      (ConditionDTO.decode wire (conditionResponse c)).map some := by
  obtain ⟨kvs, hkvs⟩ := exists_conditionResponse c
  rw [hkvs, ConditionDTO.decodePointer, ConditionDTO.decode]

private theorem mapM_of_sentIf {compared : Bool} {v : Any F} (h : wire.SentIf compared v) :
    (if compared then some (wire.marshal v) else none).mapM (decodeAny wire) =
      .ok (if compared then some v else none) := by
  cases compared with
  | false => rfl
  | true =>
    obtain ⟨raw, hraw⟩ := h
    exact Except.map_eq_ok_iff.mpr ⟨v, decodeAny_eq_ok.mpr (wire.unmarshal_marshal hraw), rfl⟩

private theorem getD_of_sentIf {compared : Bool} {v : Any F} (h : wire.SentIf compared v) :
    (if compared then some v else none).getD .null = v := by
  cases compared with
  | false => exact h.symm
  | true => rfl

private theorem exists_returned_match {m : Match F} (hold : wire.SentIf m.hasOld m.old)
    (hnew : wire.SentIf m.hasNew m.new) :
    ∃ d, MatchDTO.setMembers wire (matchResponse m) {} = some d ∧ toMatch wire d = .ok m := by
  obtain ⟨path, op, old, new, hasOld, hasNew⟩ := m
  refine ⟨⟨path, op, if hasOld then some (wire.marshal old) else none,
    if hasNew then some (wire.marshal new) else none⟩, ?_, ?_⟩
  · by_cases hop : op = "" <;> cases hasOld <;> cases hasNew <;> simp [matchResponse, hop] <;> rfl
  · rw [toMatch, mapM_of_sentIf hold, mapM_of_sentIf hnew]
    refine congrArg Except.ok ?_
    rw [getD_of_sentIf hold, getD_of_sentIf hnew]
    cases hasOld <;> cases hasNew <;> rfl

private theorem scalarFrom_update (field : String) (op : RuleOp) (raw : wire.Raw)
    {ops : List RuleOp} (hop : op ∈ ops) :
    scalarFrom wire { field, operand := Function.update (fun _ => none) op (some raw) } ops =
      if op = .opExists then .ok { field, op := op.name }
      else (decodeAny wire raw).map fun v => { field, op := op.name, value := v } := by
  induction ops with
  | nil => exact absurd hop not_mem_nil
  | cons op' ops ih =>
    rw [scalarFrom]
    by_cases heq : op' = op
    · subst heq
      simp only [Function.update_self]
    · simp only [Function.update_of_ne heq]
      exact ih ((mem_cons.mp hop).resolve_left (Ne.symm heq))

private theorem decode_scalarResponse (field : String) {op : RuleOp} (hop : op ≠ .opExists)
    (v : Any F) : ConditionDTO.decode wire (.map (scalarResponse field op.name v)) =
      some { field, operand := Function.update (fun _ => none) op (some (wire.marshal v)) } := by
  cases op <;> first | rfl | exact absurd rfl hop

private theorem decode_existsResponse (field : String) (v : Any F) :
    ConditionDTO.decode wire (.map (scalarResponse field RuleOp.opExists.name v)) =
      some { field, operand :=
        Function.update (fun _ => none) .opExists (some (wire.marshal (.bool true))) } :=
  rfl

/-- What was requested comes back. -/
theorem Requested.returns {c : Condition F} (h : Requested wire c) : Returns wire c := by
  induction h with
  | all _ ih =>
    obtain ⟨ds, hds, hcs⟩ := Returns.list ih
    refine ⟨{ all := some ds }, ?_, ?_⟩
    · rw [conditionResponse, ConditionDTO.decode, ConditionDTO.setMembers, if_pos rfl,
        ConditionDTO.decodeSlice, hds]
      rfl
    · rw [toCondition, hcs]
      rfl
  | any _ ih =>
    obtain ⟨ds, hds, hcs⟩ := Returns.list ih
    refine ⟨{ any := some ds }, ?_, ?_⟩
    · rw [conditionResponse, ConditionDTO.decode, ConditionDTO.setMembers, if_neg (by decide),
        if_pos rfl, ConditionDTO.decodeSlice, hds]
      rfl
    · rw [toCondition, hcs]
      rfl
  | @not c _ ih =>
    obtain ⟨d, hd, hc⟩ := ih
    refine ⟨{ not := some d }, ?_, ?_⟩
    · rw [conditionResponse, ConditionDTO.decode, ConditionDTO.setMembers, if_neg (by decide),
        if_neg (by decide), if_pos rfl, decodePointer_conditionResponse, hd]
      rfl
    · rw [toCondition, hc]
      rfl
  | onMatch hold hnew =>
    obtain ⟨d, hd, hm⟩ := exists_returned_match hold hnew
    refine ⟨{ field := "changes", onMatch := some d }, ?_, ?_⟩
    · exact congrArg (Option.bind · _) (congrArg (Option.map some) hd)
    · rw [toCondition, hm]
      rfl
  | bare field => exact ⟨{ field }, rfl, rfl⟩
  | present field =>
    exact ⟨_, decode_existsResponse field .null, scalarFrom_update field _ _ (RuleOp.mem_all _)⟩
  | @scalar field op v hop hv =>
    obtain ⟨raw, hraw⟩ := hv
    refine ⟨_, decode_scalarResponse field hop v, ?_⟩
    refine (scalarFrom_update field op _ (RuleOp.mem_all op)).trans ?_
    rw [if_neg hop, decodeAny_eq_ok.mpr (wire.unmarshal_marshal hraw)]
    rfl

end RoundTrip

/-- **Round trips of conditions.** A condition that compiles and whose operands are JSON is read
from the database as one that compiles and holds for the same events. The condition of a request is
what the response says: decoded as a request, it gives the same condition. -/
theorem condition_round_trips {F R : Type} (lib : Library F R) (driver : Driver) (wire : Wire F) :
    (∀ (c : Condition F) (p : Predicate F R), c.compile lib = .ok p →
      (∀ v ∈ c.operands, v.IsJson) →
      ∃ d p', CondDoc.unmarshal ((toCondDoc c).marshal driver) = some d ∧
        (fromCondDoc d).compile lib = .ok p' ∧ ∀ e, p'.eval lib e = p.eval lib e) ∧
    ∀ (d : ConditionDTO wire.Raw) (c : Condition F), toCondition wire d = .ok c →
      ∃ d', ConditionDTO.decode wire (conditionResponse c) = some d' ∧
        toCondition wire d' = .ok c := by
  constructor
  · intro c p hp hjson
    obtain ⟨d, hd, hfrom⟩ := exists_reload driver hjson
    exact ⟨d, p, hd, hfrom.symm ▸ hp, fun e => rfl⟩
  · intro d c hc
    exact (requested_of_toCondition hc).returns

section Sample

/-- Whole numbers for numbers, and patterns that match themselves. -/
def Library.ofInts : Library Int String where
  number := Number.ofInt
  ofInt := id
  formatFloat := toString
  parseFloat := String.toInt?
  less a b := a < b
  lessEq a b := a ≤ b
  quote := id
  compileRegexp := .ok
  matchString re s := re = s

/-- Values as their own raw messages. -/
def Wire.ofValues : Wire Int where
  Raw := Any Int
  marshal := id
  unmarshal := some
  unmarshal_marshal _ := rfl

/-- Writes from one of two systems, unless nothing. -/
def sampleRequest : ConditionDTO (Any Int) where
  all := some [
    { not := some { any := some [] } },
    { field := "source",
      operand := Function.update (fun _ => none) .opIn (some (.slice [.str "crm", .str "erp"])) }]

/-- What is requested with `sampleRequest`. -/
def sampleCondition : Condition Int where
  all := some [
    { not := some { any := some [] } },
    { field := "source", op := "in", value := .slice [.str "crm", .str "erp"] }]

/-- The sample, stored and sent. -/
theorem condition_round_trips_sample :
    (∃ d p', CondDoc.unmarshal ((toCondDoc sampleCondition).marshal Driver.byKey) = some d ∧
      (fromCondDoc d).compile Library.ofInts = .ok p' ∧
      p'.eval Library.ofInts ⟨"update", "e1", "u1", "erp", []⟩ = true) ∧
    ∃ d', ConditionDTO.decode Wire.ofValues (conditionResponse sampleCondition) = some d' ∧
      toCondition Wire.ofValues d' = .ok sampleCondition := by
  have h := condition_round_trips Library.ofInts Driver.byKey Wire.ofValues
  refine ⟨?_, h.2 sampleRequest sampleCondition rfl⟩
  have hjson : ∀ v ∈ sampleCondition.operands, v.IsJson := by
    have hnull : (Any.null : Any Int).IsJson := .null
    have hlist : (Any.slice [.str "crm", .str "erp"] : Any Int).IsJson := .slice (by
      simpa using ⟨.str "crm", .str "erp"⟩)
    intro v hv
    change v ∈ [.null, .null, .null, .slice [.str "crm", .str "erp"]] at hv
    simp only [mem_cons, not_mem_nil, or_false] at hv
    rcases hv with rfl | rfl | rfl | rfl <;> assumption
  obtain ⟨d, p', hd, hp', heval⟩ := h.1 sampleCondition _ rfl hjson
  exact ⟨d, p', hd, hp', (heval _).trans rfl⟩

end Sample

end Letopis
