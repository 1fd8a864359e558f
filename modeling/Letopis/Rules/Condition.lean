import Letopis.Diff.Diff

/-!
# Rule conditions

A rule has a condition on events: a tree of `all`, `any` and `not` whose leaves compare a scalar
field of the event or look for a change. A node is a record of optional parts, of which one is set;
`compile` checks that and turns the tree into a predicate, with the place and the reason of the
first mistake.

Go values that come from outside are of type `any`; `Any` are those that occur here. What
`encoding/json` decodes is made of `nil`, booleans, numbers, strings, slices and maps
(`Any.IsJson`); the driver of the database has types of its own for arrays and documents. Numbers
are of a type `F` for `float64`, and what the standard library does with numbers and patterns is a
parameter (`Library`).
-/

namespace Letopis

/-! ### Dynamic values -/

/-- A value of type `any`. -/
inductive Any (F : Type) where
  | null
  | bool (b : Bool)
  | float (x : F)
  | int (n : Int)
  | str (s : String)
  | slice (xs : List (Any F))
  | map (kvs : List (String × Any F))
  | bsonA (xs : List (Any F))
  | bsonD (kvs : List (String × Any F))
  | bsonM (kvs : List (String × Any F))

namespace Any

variable {F : Type}

/-- The value is one that `encoding/json` decodes. The entries of a map are listed by key. -/
inductive IsJson : Any F → Prop
  | null : IsJson .null
  | bool (b : Bool) : IsJson (.bool b)
  | float (x : F) : IsJson (.float x)
  | str (s : String) : IsJson (.str s)
  | slice {xs : List (Any F)} (h : ∀ v ∈ xs, IsJson v) : IsJson (.slice xs)
  | map {kvs : List (String × Any F)} (hs : SortedAssoc.Sorted kvs)
      (h : ∀ p ∈ kvs, IsJson p.2) : IsJson (.map kvs)

/-- The value is nil. -/
def isNull : Any F → Bool
  | .null => true
  | _ => false

section Json

variable (number : F → Number)

mutual

/-- The JSON value with the same content, if the value is of the types of `encoding/json`. -/
def json? : Any F → Option Json
  | .null => some .null
  | .bool b => some (.bool b)
  | .float x => some (.num (number x))
  | .str s => some (.str s)
  | .slice xs => (jsonElems? xs).map .arr
  | .map kvs => (jsonEntries? kvs).map .obj
  | .int _ | .bsonA _ | .bsonD _ | .bsonM _ => none

/-- `json?` for each element of a slice. -/
def jsonElems? : List (Any F) → Option (List Json)
  | [] => some []
  | v :: vs => (json? v).bind fun x => (jsonElems? vs).map (x :: ·)

/-- `json?` for each entry of a map. -/
def jsonEntries? : List (String × Any F) → Option Fields
  | [] => some []
  | (k, v) :: kvs => (json? v).bind fun x => (jsonEntries? kvs).map ((k, x) :: ·)

end

end Json

end Any

/-- What compiling and evaluating take from the standard library: `float64` values of a type `F` and
patterns of a type `R`. -/
structure Library (F R : Type) where
  /-- The JSON number of a finite value; values with one number are equal in Go. -/
  number : F → Number
  ofInt : Int → F
  /-- `strconv.FormatFloat` in the shortest general form. -/
  formatFloat : F → String
  parseFloat : String → Option F
  less : F → F → Bool
  /-- The order of values or their equality. -/
  lessEq : F → F → Bool
  quote : String → String
  /-- `regexp.Compile`, with the text of the error. -/
  compileRegexp : String → Except String R
  matchString : R → String → Bool

/-! ### Conditions -/

/-- The comparison operators of a leaf. -/
inductive RuleOp where
  | opEq
  | opNe
  | opIn
  | opGt
  | opGte
  | opLt
  | opLte
  | opRegex
  | opExists
  deriving DecidableEq

namespace RuleOp

/-- How an operator is written. -/
def name : RuleOp → String
  | .opEq => "eq"
  | .opNe => "ne"
  | .opIn => "in"
  | .opGt => "gt"
  | .opGte => "gte"
  | .opLt => "lt"
  | .opLte => "lte"
  | .opRegex => "regex"
  | .opExists => "exists"

/-- All operators, in the order in which they are looked for in a request. -/
def all : List RuleOp := [opEq, opNe, opIn, opGt, opGte, opLt, opLte, opRegex, opExists]

/-- The operator of a name. -/
def ofName? (s : String) : Option RuleOp := all.find? fun op => op.name = s

theorem mem_all (op : RuleOp) : op ∈ all := by
  cases op <;> decide

theorem ofName?_name (op : RuleOp) : ofName? op.name = some op := by
  cases op <;> decide

end RuleOp

/-- The scalar fields of an event that a leaf can read. -/
inductive RuleField where
  | fieldOp
  | fieldEntityID
  | fieldAuthorID
  | fieldSource
  deriving DecidableEq

namespace RuleField

/-- How a field is written. -/
def name : RuleField → String
  | .fieldOp => "op"
  | .fieldEntityID => "entity_id"
  | .fieldAuthorID => "author_id"
  | .fieldSource => "source"

/-- The field of a name; there is one exactly if the name is valid. -/
def ofName? (s : String) : Option RuleField :=
  [fieldOp, fieldEntityID, fieldAuthorID, fieldSource].find? fun f => f.name = s

end RuleField

/-- A leaf on the changes of an event. -/
structure Match (F : Type) where
  path : String
  /-- The kind of edit by its name; empty if any will do. -/
  op : String
  old : Any F
  new : Any F
  hasOld : Bool
  hasNew : Bool

/-- A node of the tree. A nil slice is `none`, an empty one `some []`. -/
structure Condition (F : Type) where
  all : Option (List (Condition F)) := none
  any : Option (List (Condition F)) := none
  not : Option (Condition F) := none
  field : String := ""
  op : String := ""
  value : Any F := .null
  onMatch : Option (Match F) := none

namespace Condition

variable {F : Type}

@[elab_as_elim]
theorem induction {P : Condition F → Prop}
    (node : ∀ c : Condition F, (∀ cs ∈ c.all, ∀ d ∈ cs, P d) → (∀ cs ∈ c.any, ∀ d ∈ cs, P d) →
      (∀ d ∈ c.not, P d) → P c) (c : Condition F) : P c :=
  @Condition.rec F P (fun o => ∀ cs ∈ o, ∀ d ∈ cs, P d) (fun o => ∀ d ∈ o, P d)
    (fun cs => ∀ d ∈ cs, P d)
    (fun _ _ _ _ _ _ _ hall hany hnot => node _ hall hany hnot)
    (by simp) (fun cs h => by simpa using h) (by simp) (fun d h => by simpa using h)
    (by simp) (fun d cs hd hcs => by simpa using ⟨hd, hcs⟩) c

mutual

/-- All operands in the tree. -/
def operands : Condition F → List (Any F)
  | ⟨all, any, not, _, _, value, onMatch⟩ =>
    value :: (onMatch.elim [] fun m => [m.old, m.new]) ++ operandsSlice all ++ operandsSlice any ++
      operandsPointer not

/-- The operands of an optional list of trees. -/
def operandsSlice : Option (List (Condition F)) → List (Any F)
  | none => []
  | some cs => operandsList cs

/-- The operands of a list of trees. -/
def operandsList : List (Condition F) → List (Any F)
  | [] => []
  | c :: cs => c.operands ++ operandsList cs

/-- The operands of an optional tree. -/
def operandsPointer : Option (Condition F) → List (Any F)
  | none => []
  | some c => c.operands

end

private theorem mem_operandsList {cs : List (Condition F)} {v : Any F} :
    v ∈ operandsList cs ↔ ∃ c ∈ cs, v ∈ c.operands := by
  induction cs with
  | nil => simp [operandsList]
  | cons c cs ih => simp [operandsList, ih]

private theorem mem_operandsSlice {o : Option (List (Condition F))} {v : Any F} :
    v ∈ operandsSlice o ↔ ∃ cs ∈ o, ∃ c ∈ cs, v ∈ c.operands := by
  cases o with
  | none => simp [operandsSlice]
  | some cs => simp [operandsSlice, mem_operandsList]

private theorem mem_operandsPointer {o : Option (Condition F)} {v : Any F} :
    v ∈ operandsPointer o ↔ ∃ c ∈ o, v ∈ c.operands := by
  cases o with
  | none => simp [operandsPointer]
  | some c => simp [operandsPointer]

theorem mem_operands {c : Condition F} {v : Any F} :
    v ∈ c.operands ↔ v = c.value ∨ (∃ m ∈ c.onMatch, v = m.old ∨ v = m.new) ∨
      (∃ cs ∈ c.all, ∃ d ∈ cs, v ∈ d.operands) ∨ (∃ cs ∈ c.any, ∃ d ∈ cs, v ∈ d.operands) ∨
      ∃ d ∈ c.not, v ∈ d.operands := by
  obtain ⟨all, any, not, field, op, value, onMatch⟩ := c
  rw [operands, List.mem_append, List.mem_append, List.mem_append, mem_operandsSlice,
    mem_operandsSlice, mem_operandsPointer]
  cases onMatch <;> simp [or_assoc]

end Condition

/-! ### Predicates -/

/-- The view of an event that a rule is evaluated against. -/
structure EvalEvent where
  op : String
  entityID : String
  author : String
  source : String
  changes : List Change

/-- A compiled leaf on a scalar field. The operator selects which of the others is read. -/
structure ScalarPred (F R : Type) where
  field : RuleField
  op : RuleOp
  /-- The text that the field is compared with. -/
  str : String := ""
  /-- The texts among which the field is looked for. -/
  set : List String := []
  /-- The number that the field is compared with. -/
  num : Option F := none
  re : Option R := none

/-- A compiled leaf on the changes. -/
structure MatchPred (F : Type) where
  segs : List String
  /-- The kind of edit by its name; empty if any will do. -/
  op : String
  old : Any F
  hasOld : Bool
  new : Any F
  hasNew : Bool

/-- A compiled condition. -/
inductive Predicate (F R : Type) where
  | allPred (ps : List (Predicate F R))
  | anyPred (ps : List (Predicate F R))
  | notPred (inner : Predicate F R)
  | scalarPred (p : ScalarPred F R)
  | matchPred (p : MatchPred F)

section Evaluation

variable {F R : Type} (lib : Library F R)

/-- The text of a scalar value; empty for any other. -/
def toStr : Any F → String
  | .str s => s
  | .bool b => if b then "true" else "false"
  | .float x => lib.formatFloat x
  | .int n => toString n
  | _ => ""

/-- The number of a value, if it has one. -/
def toFloat : Any F → Option F
  | .float x => some x
  | .int n => some (lib.ofInt n)
  | .str s => lib.parseFloat s
  | _ => none

/-- Compare two numbers by the operator. -/
def compareNum (op : RuleOp) (a b : F) : Bool :=
  match op with
  | .opGt => lib.less b a
  | .opGte => lib.lessEq b a
  | .opLt => lib.less a b
  | .opLte => lib.lessEq a b
  | _ => false

/-- The value of a field of the event; an empty one counts as absent. -/
def scalarField (e : EvalEvent) : RuleField → String
  | .fieldOp => e.op
  | .fieldEntityID => e.entityID
  | .fieldAuthorID => e.author
  | .fieldSource => e.source

/-- Evaluate a leaf on a scalar field. -/
def ScalarPred.eval (p : ScalarPred F R) (e : EvalEvent) : Bool :=
  let val := scalarField e p.field
  let present : Bool := val ≠ ""
  match p.op with
  | .opExists => present
  | .opEq => present && val == p.str
  -- an absent field differs from every text but the empty one
  | .opNe => val != p.str
  | .opIn => present && p.set.contains val
  | .opGt | .opGte | .opLt | .opLte =>
    match toFloat lib (.str val), p.num with
    | some n, some m => compareNum lib p.op n m
    | _, _ => false
  | .opRegex => present && p.re.any fun re => lib.matchString re val

/-- The parts of a path between dots. -/
def splitPath (path : String) : List String := (path.toList.splitOn '.').map String.ofList

/-- A glob matches a path segment by segment. -/
def globMatch (segs : List String) (path : String) : Bool :=
  if path = "" then segs.length = 0
  else
    let parts := splitPath path
    parts.length = segs.length && (segs.zip parts).all fun p => p.1 = "*" || p.1 = p.2

/-- Equality of a value of a change with an operand: the operand is of the same types and has the
same content. -/
def jsonEqual (a : Json) (b : Any F) : Bool := b.json? lib.number = some a

/-- Evaluate a leaf on the changes. -/
def MatchPred.eval (p : MatchPred F) (e : EvalEvent) : Bool :=
  e.changes.any fun ch =>
    (p.op = "" || ch.op.text = p.op) && globMatch p.segs ch.path &&
      (!p.hasOld || jsonEqual lib ch.old p.old) && (!p.hasNew || jsonEqual lib ch.new p.new)

namespace Predicate

mutual

/-- Evaluate a compiled condition. -/
def eval : Predicate F R → EvalEvent → Bool
  | .allPred ps, e => evalAll ps e
  | .anyPred ps, e => evalAny ps e
  | .notPred p, e => !p.eval e
  | .scalarPred p, e => p.eval lib e
  | .matchPred p, e => p.eval lib e

/-- Every predicate of a list holds. -/
def evalAll : List (Predicate F R) → EvalEvent → Bool
  | [], _ => true
  | p :: ps, e => p.eval e && evalAll ps e

/-- One predicate of a list holds. -/
def evalAny : List (Predicate F R) → EvalEvent → Bool
  | [], _ => false
  | p :: ps, e => p.eval e || evalAny ps e

end

end Predicate

end Evaluation

/-! ### Compiling -/

/-- An invalid condition: where and why. -/
structure RuleError where
  field : String
  reason : String

/-- The kinds of nodes. -/
inductive CondKind where
  | kindScalar
  | kindAll
  | kindAny
  | kindNot
  | kindMatch
  deriving DecidableEq

section Compile

variable {F R : Type}

/-- The kind of a node, if exactly one is set. An empty list counts as set. -/
def classify (c : Condition F) (path : String) : Except RuleError CondKind :=
  let kinds : List CondKind :=
    (if c.all.isSome then [.kindAll] else []) ++ (if c.any.isSome then [.kindAny] else []) ++
      (if c.not.isSome then [.kindNot] else []) ++
      (if c.onMatch.isSome then [.kindMatch] else []) ++
      (if c.field ≠ "" || c.op ≠ "" then [.kindScalar] else [])
  match kinds with
  | [] => .error ⟨path, "empty condition: set one of all/any/not/match or field+op"⟩
  | [kind] => .ok kind
  | _ => .error
    ⟨path, "ambiguous condition: set exactly one of all/any/not/match or a scalar field"⟩

variable (lib : Library F R)

/-- Check the operator and the operand of a leaf and prepare the comparison. -/
def compileScalar (c : Condition F) (path : String) : Except RuleError (Predicate F R) :=
  match RuleField.ofName? c.field with
  | none => .error ⟨path ++ ".field", "unknown field " ++ c.field⟩
  | some field =>
    match RuleOp.ofName? c.op with
    | some .opEq => .ok (.scalarPred { field, op := .opEq, str := toStr lib c.value })
    | some .opNe => .ok (.scalarPred { field, op := .opNe, str := toStr lib c.value })
    | some .opIn =>
      match c.value with
      | .slice list => .ok (.scalarPred { field, op := .opIn, set := list.map (toStr lib) })
      | _ => .error ⟨path ++ ".in", "value must be a list"⟩
    | some .opRegex =>
      match c.value with
      | .str s =>
        match lib.compileRegexp s with
        | .ok re => .ok (.scalarPred { field, op := .opRegex, re := some re })
        | .error msg => .error ⟨path ++ ".regex", "invalid pattern: " ++ msg⟩
      | _ => .error ⟨path ++ ".regex", "value must be a string"⟩
    | some .opExists => .ok (.scalarPred { field, op := .opExists })
    | some op =>
      match toFloat lib c.value with
      | some n => .ok (.scalarPred { field, op, num := some n })
      | none => .error ⟨path ++ "." ++ c.op, "value must be numeric"⟩
    | none => .error ⟨path ++ ".op", "unknown operator " ++ c.op⟩

/-- Split a glob into segments, none of which may be empty. -/
def compileGlob (glob path : String) : Except RuleError (List String) :=
  if glob = "" then .ok []
  else if (splitPath glob).contains "" then
    .error ⟨path, "empty path segment in glob " ++ lib.quote glob⟩
  else .ok (splitPath glob)

/-- Check a leaf on the changes. -/
def compileMatch (m : Match F) (path : String) : Except RuleError (Predicate F R) :=
  match compileGlob lib m.path (path ++ ".path") with
  | .error err => .error err
  | .ok segs =>
    if m.op ≠ "" ∧ m.op ∉ [ChangeOp.add.text, ChangeOp.change.text, ChangeOp.remove.text] then
      .error ⟨path ++ ".op", "unknown change op " ++ m.op⟩
    else .ok (.matchPred ⟨segs, m.op, m.old, m.hasOld, m.new, m.hasNew⟩)

namespace Condition

mutual

/-- Compile the tree at a place. -/
def compileAt : Condition F → String → Except RuleError (Predicate F R)
  | ⟨all, any, not, field, op, value, onMatch⟩, path =>
    let c : Condition F := ⟨all, any, not, field, op, value, onMatch⟩
    match classify c path with
    | .error err => .error err
    | .ok .kindAll => (compileSlice all (path ++ ".all")).map .allPred
    | .ok .kindAny => (compileSlice any (path ++ ".any")).map .anyPred
    | .ok .kindNot => (compilePointer not (path ++ ".not")).map .notPred
    | .ok .kindMatch =>
      onMatch.elim (.error ⟨path, ""⟩) fun m => compileMatch lib m (path ++ ".match")
    | .ok .kindScalar => compileScalar lib c path

/-- Compile a slice of trees. -/
def compileSlice : Option (List (Condition F)) → String → Except RuleError (List (Predicate F R))
  | none, _ => .ok []
  | some cs, path => compileList cs path 0

/-- Compile the trees of a list from a position on. -/
def compileList : List (Condition F) → String → Nat → Except RuleError (List (Predicate F R))
  | [], _, _ => .ok []
  | c :: cs, path, i => do
    let p ← c.compileAt (path ++ "[" ++ toString i ++ "]")
    let ps ← compileList cs path (i + 1)
    return p :: ps

/-- Compile the tree behind a pointer, which `classify` has found set. -/
def compilePointer : Option (Condition F) → String → Except RuleError (Predicate F R)
  | none, path => .error ⟨path, ""⟩
  | some c, path => c.compileAt path

end

/-- Compile a condition; its root is at `condition`. -/
def compile (c : Condition F) : Except RuleError (Predicate F R) := c.compileAt lib "condition"

end Condition

end Compile

end Letopis
