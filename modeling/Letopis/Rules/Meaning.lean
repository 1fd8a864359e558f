import Letopis.Rules.Condition
import Mathlib.Data.List.Forall2

/-!
# What a condition means

The meaning of a condition can be read off its tree without compiling it (`Condition.holds`): a
node is a conjunction, a disjunction, a negation, a comparison of a field of the event with the
operand, or the question whether some change meets every criterion that is set. `compile` checks the
nodes in depth-first order, from left to right. It accepts exactly the trees whose nodes are all
proper, reports the address of the first node that is not, and what it returns evaluates to the
meaning of the tree (`compile_correct`).

What the standard library does with numbers and patterns stays a parameter.
-/

namespace Letopis

/-! ### Meaning -/

section Meaning

variable {F R : Type} (lib : Library F R)

/-- The elements of an operand that is a list. -/
def Any.elements : Any F → List (Any F)
  | .slice vs => vs
  | _ => []

/-- The pattern of an operand. -/
def Any.pattern? : Any F → Option R
  | .str s => (lib.compileRegexp s).toOption
  | _ => none

/-- A field of the event compares with the operand as the operator says. An empty field is absent:
it is not equal to anything, not in any list and does not match, but it differs from every text
other than the empty one. -/
def RuleOp.holds (op : RuleOp) (value : Any F) (val : String) : Bool :=
  match op with
  | .opExists => val ≠ ""
  | .opEq => val ≠ "" && val = toStr lib value
  | .opNe => val ≠ toStr lib value
  | .opIn => val ≠ "" && value.elements.any fun v => toStr lib v = val
  | .opGt | .opGte | .opLt | .opLte =>
    (lib.parseFloat val).any fun x => (toFloat lib value).any fun y => compareNum lib op x y
  | .opRegex => val ≠ "" && (value.pattern? lib).any fun re => lib.matchString re val

/-- The text of the field that a name stands for. -/
def EvalEvent.field? (e : EvalEvent) (name : String) : Option String :=
  [("op", e.op), ("entity_id", e.entityID), ("author_id", e.author), ("source", e.source)].lookup
    name

/-- The segments of a path; the empty path has none. -/
def pathSegments (path : String) : List String := if path = "" then [] else splitPath path

/-- A glob covers a path: they have the same segments, where a star stands for any one. -/
def GlobCovers (glob path : String) : Prop :=
  List.Forall₂ (fun g s => g = "*" ∨ g = s) (pathSegments glob) (pathSegments path)

instance (glob path : String) : Decidable (GlobCovers glob path) :=
  inferInstanceAs (Decidable (List.Forall₂ _ _ _))

/-- A change meets every criterion that is set. -/
def Match.Meets (m : Match F) (ch : Change) : Prop :=
  (m.op = "" ∨ ch.op.text = m.op) ∧ GlobCovers m.path ch.path ∧
    (m.hasOld = true → m.old.json? lib.number = some ch.old) ∧
    (m.hasNew = true → m.new.json? lib.number = some ch.new)

instance (m : Match F) (ch : Change) : Decidable (m.Meets lib ch) :=
  inferInstanceAs (Decidable (_ ∧ _))

namespace Condition

mutual

/-- The condition holds of the event. A node is what its first part says that is set; a proper node
sets one. -/
def holds : Condition F → EvalEvent → Bool
  | ⟨all, any, not, field, op, value, onMatch⟩, e =>
    match all, any, not, onMatch with
    | some cs, _, _, _ => holdsAll cs e
    | none, some cs, _, _ => holdsAny cs e
    | none, none, some c, _ => !c.holds e
    | none, none, none, some m => e.changes.any fun ch => m.Meets lib ch
    | none, none, none, none =>
      match e.field? field, RuleOp.ofName? op with
      | some val, some op => op.holds lib value val
      | _, _ => false

/-- All conditions of a list hold. -/
def holdsAll : List (Condition F) → EvalEvent → Bool
  | [], _ => true
  | c :: cs, e => c.holds e && holdsAll cs e

/-- Some condition of a list holds. -/
def holdsAny : List (Condition F) → EvalEvent → Bool
  | [], _ => false
  | c :: cs, e => c.holds e || holdsAny cs e

end

/-! ### Proper nodes -/

/-- The node sets a part. An empty list counts as set. -/
def sets (c : Condition F) : CondKind → Bool
  | .kindAll => c.all.isSome
  | .kindAny => c.any.isSome
  | .kindNot => c.not.isSome
  | .kindMatch => c.onMatch.isSome
  | .kindScalar => c.field ≠ "" || c.op ≠ ""

/-- The parts that a node sets. -/
def kinds (c : Condition F) : List CondKind :=
  [.kindAll, .kindAny, .kindNot, .kindMatch, .kindScalar].filter c.sets

end Condition

/-- The operand is one that the operator can be used with. -/
def RuleOp.Takes (op : RuleOp) (value : Any F) : Prop :=
  match op with
  | .opEq | .opNe | .opExists => True
  | .opIn => ∃ vs, value = .slice vs
  | .opGt | .opGte | .opLt | .opLte => (toFloat lib value).isSome = true
  | .opRegex => (value.pattern? lib).isSome = true

/-- A leaf on a scalar field: the field and the operator are known, and the operand is one for the
operator. -/
def Condition.ProperScalar (c : Condition F) : Prop :=
  (RuleField.ofName? c.field).isSome = true ∧ ∃ op ∈ RuleOp.ofName? c.op, op.Takes lib c.value

/-- A leaf on the changes: no segment of the glob is empty, and the kind of edit is left out or
known. -/
def Match.Proper (m : Match F) : Prop :=
  "" ∉ pathSegments m.path ∧
    (m.op = "" ∨ m.op ∈ [ChangeOp.add.text, ChangeOp.change.text, ChangeOp.remove.text])

/-- A node that sets one part, which is well formed if it is a leaf. -/
structure Condition.Proper (c : Condition F) : Prop where
  single : c.kinds.length = 1
  scalar : c.sets .kindScalar = true → c.ProperScalar lib
  onMatch : ∀ m ∈ c.onMatch, m.Proper

namespace Condition

mutual

/-- The nodes of a tree with their addresses, depth first and from left to right. -/
def nodes : Condition F → String → List (String × Condition F)
  | ⟨all, any, not, field, op, value, onMatch⟩, path =>
    (path, ⟨all, any, not, field, op, value, onMatch⟩) ::
      (nodesSlice all (path ++ ".all") ++ nodesSlice any (path ++ ".any") ++
        nodesPointer not (path ++ ".not"))

/-- The nodes of a slice of trees. -/
def nodesSlice : Option (List (Condition F)) → String → List (String × Condition F)
  | none, _ => []
  | some cs, path => nodesList cs path 0

/-- The nodes of the trees of a list, from a position on. -/
def nodesList : List (Condition F) → String → Nat → List (String × Condition F)
  | [], _, _ => []
  | c :: cs, path, i => c.nodes (path ++ "[" ++ toString i ++ "]") ++ nodesList cs path (i + 1)

/-- The nodes of the tree behind a pointer. -/
def nodesPointer : Option (Condition F) → String → List (String × Condition F)
  | none, _ => []
  | some c, path => c.nodes path

end

/-- Where the mistake is in a node that is not proper: at the node itself if it does not set one
part, and otherwise at an attribute of the leaf. -/
def mistake (c : Condition F) : String :=
  if c.kinds.length ≠ 1 then ""
  else
    match c.onMatch with
    | some m => if "" ∈ pathSegments m.path then ".match.path" else ".match.op"
    | none =>
      if (RuleField.ofName? c.field).isNone then ".field"
      else if (RuleOp.ofName? c.op).isNone then ".op"
      else "." ++ c.op

end Condition

/-! ### Leaves -/

private theorem globCovers_iff (glob path : String) :
    GlobCovers glob path ↔ globMatch (pathSegments glob) path = true := by
  rw [GlobCovers, globMatch, pathSegments.eq_1 path]
  split_ifs with hpath
  · rw [List.forall₂_nil_right_iff]
    simp
  · rw [List.forall₂_iff_zip]
    simp only [Bool.and_eq_true, decide_eq_true_eq, List.all_eq_true, Bool.or_eq_true, Prod.forall]
    exact and_congr eq_comm Iff.rfl

private theorem compileGlob_eq (glob path : String) : compileGlob lib glob path =
    if "" ∈ pathSegments glob then .error ⟨path, "empty path segment in glob " ++ lib.quote glob⟩
    else .ok (pathSegments glob) := by
  rw [compileGlob, pathSegments]
  by_cases hglob : glob = ""
  · simp [hglob]
  · simp [hglob]

/-- A leaf on the changes compiles if it is proper, and then looks for a change that meets it. -/
theorem compileMatch_of_proper {m : Match F} (h : m.Proper) (path : String) :
    ∃ p, compileMatch lib m path = .ok p ∧
      ∀ e, p.eval lib e = e.changes.any fun ch => m.Meets lib ch := by
  have hop : ¬(m.op ≠ "" ∧
      m.op ∉ [ChangeOp.add.text, ChangeOp.change.text, ChangeOp.remove.text]) :=
    fun hbad => h.2.elim hbad.1 hbad.2
  refine ⟨.matchPred ⟨pathSegments m.path, m.op, m.old, m.hasOld, m.new, m.hasNew⟩, ?_, fun e => ?_⟩
  · rw [compileMatch, compileGlob_eq, if_neg h.1]
    exact if_neg hop
  · refine congrArg (List.any e.changes) (funext fun ch => ?_)
    rw [Bool.eq_iff_iff, decide_eq_true_iff, Match.Meets, globCovers_iff]
    cases m.hasOld <;> cases m.hasNew <;> simp [jsonEqual, and_assoc]

private theorem compileMatch_of_not_proper {m : Match F} (h : ¬m.Proper) (path : String) :
    ∃ err, compileMatch lib m path = .error err ∧
      err.field = path ++ if "" ∈ pathSegments m.path then ".path" else ".op" := by
  rw [compileMatch, compileGlob_eq]
  by_cases hglob : "" ∈ pathSegments m.path
  · rw [if_pos hglob, if_pos hglob]
    exact ⟨_, rfl, rfl⟩
  · have hop : m.op ≠ "" ∧
        m.op ∉ [ChangeOp.add.text, ChangeOp.change.text, ChangeOp.remove.text] :=
      not_or.mp fun hop => h ⟨hglob, hop⟩
    rw [if_neg hglob, if_neg hglob]
    exact ⟨_, if_pos hop, rfl⟩

/-- The compiler knows the same fields. -/
theorem EvalEvent.field?_eq {name : String} {field : RuleField}
    (h : RuleField.ofName? name = some field) (e : EvalEvent) :
    e.field? name = some (scalarField e field) := by
  obtain rfl : field.name = name := by simpa using List.find?_some h
  cases field <;> rfl

private theorem RuleOp.name_of_ofName? {s : String} {op : RuleOp} (h : RuleOp.ofName? s = some op) :
    op.name = s := by
  simpa using List.find?_some h

theorem RuleOp.name_ne_empty (op : RuleOp) : op.name ≠ "" := by
  cases op <;> decide

theorem toFloat_str (s : String) : toFloat lib (.str s) = lib.parseFloat s := rfl

private theorem compileScalar_of_proper {c : Condition F} (h : c.ProperScalar lib) (path : String) :
    ∃ p field op, compileScalar lib c path = .ok p ∧ RuleField.ofName? c.field = some field ∧
      RuleOp.ofName? c.op = some op ∧
      ∀ e, p.eval lib e = op.holds lib c.value (scalarField e field) := by
  obtain ⟨hfield, op, hop, htakes⟩ := h
  obtain ⟨field, hfield⟩ := Option.isSome_iff_exists.mp hfield
  have hop : RuleOp.ofName? c.op = some op := hop
  rw [compileScalar, hfield, hop]
  cases op with
  | opEq | opNe =>
    refine ⟨_, field, _, rfl, rfl, rfl, fun e => ?_⟩
    simp [Predicate.eval, ScalarPred.eval, RuleOp.holds, bne, beq_eq_decide]
  | opExists =>
    refine ⟨_, field, _, rfl, rfl, rfl, fun e => ?_⟩
    simp [Predicate.eval, ScalarPred.eval, RuleOp.holds]
  | opIn =>
    obtain ⟨vs, hvs⟩ := htakes
    rw [hvs]
    refine ⟨_, field, _, rfl, rfl, rfl, fun e => ?_⟩
    simp [Predicate.eval, ScalarPred.eval, RuleOp.holds, Any.elements, List.any_eq]
  | opGt | opGte | opLt | opLte =>
    obtain ⟨n, hn⟩ := Option.isSome_iff_exists.mp htakes
    simp only [hn]
    refine ⟨_, field, _, rfl, rfl, rfl, fun e => ?_⟩
    simp only [Predicate.eval, ScalarPred.eval, RuleOp.holds, toFloat_str, hn]
    cases lib.parseFloat (scalarField e field) <;> rfl
  | opRegex =>
    obtain ⟨re, hre⟩ := Option.isSome_iff_exists.mp htakes
    cases hv : c.value with
    | str s =>
      rw [hv, Any.pattern?] at hre
      cases hs : lib.compileRegexp s with
      | error msg =>
        rw [hs] at hre
        cases hre
      | ok re' =>
        simp only [hs]
        refine ⟨_, field, _, rfl, rfl, rfl, fun e => ?_⟩
        simp [Predicate.eval, ScalarPred.eval, RuleOp.holds, Any.pattern?, hs, Except.toOption]
    | null | bool | float | int | slice | map | bsonA | bsonD | bsonM =>
      rw [hv] at hre
      cases hre

private theorem compileScalar_of_not_proper {c : Condition F} (h : ¬c.ProperScalar lib)
    (path : String) : ∃ err, compileScalar lib c path = .error err ∧
      err.field = path ++ if (RuleField.ofName? c.field).isNone then ".field"
        else if (RuleOp.ofName? c.op).isNone then ".op" else "." ++ c.op := by
  rw [compileScalar]
  cases hfield : RuleField.ofName? c.field with
  | none => exact ⟨_, rfl, rfl⟩
  | some field =>
    cases hop : RuleOp.ofName? c.op with
    | none => exact ⟨_, rfl, rfl⟩
    | some op =>
      have htakes : ¬op.Takes lib c.value := fun htakes => h ⟨by rw [hfield]; rfl, op, hop, htakes⟩
      have hname := RuleOp.name_of_ofName? hop
      simp only [Option.isNone_some, Bool.false_eq_true, if_false, ← hname]
      cases op with
      | opEq | opNe | opExists => exact absurd trivial htakes
      | opIn =>
        cases hv : c.value with
        | slice vs => exact absurd ⟨vs, hv⟩ htakes
        | null | bool | float | int | str | map | bsonA | bsonD | bsonM => exact ⟨_, rfl, rfl⟩
      | opGt | opGte | opLt | opLte =>
        have hnone : toFloat lib c.value = none := Option.not_isSome_iff_eq_none.mp htakes
        simp only [hnone]
        exact ⟨_, rfl, String.append_assoc⟩
      | opRegex =>
        have hnone : c.value.pattern? lib = none := Option.not_isSome_iff_eq_none.mp htakes
        cases hv : c.value with
        | str s =>
          rw [hv, Any.pattern?] at hnone
          cases hs : lib.compileRegexp s with
          | ok re =>
            rw [hs] at hnone
            cases hnone
          | error msg =>
            simp only [hs]
            exact ⟨_, rfl, rfl⟩
        | null | bool | float | int | slice | map | bsonA | bsonD | bsonM => exact ⟨_, rfl, rfl⟩

/-! ### Trees -/

private theorem Condition.mem_kinds {c : Condition F} {kind : CondKind} :
    kind ∈ c.kinds ↔ c.sets kind = true := by
  cases kind <;> simp [kinds]

/-- The kind of a node, if it sets one part; otherwise the node itself is reported. -/
theorem classify_cases (c : Condition F) (path : String) :
    (∃ kind, c.kinds = [kind] ∧ classify c path = .ok kind) ∨
      c.kinds.length ≠ 1 ∧ ∃ reason, classify c path = .error ⟨path, reason⟩ := by
  have hkinds : (if c.all.isSome then [.kindAll] else []) ++
      (if c.any.isSome then [.kindAny] else []) ++ (if c.not.isSome then [.kindNot] else []) ++
      (if c.onMatch.isSome then [.kindMatch] else []) ++
      (if c.field ≠ "" || c.op ≠ "" then [.kindScalar] else []) = c.kinds := by
    simp only [Condition.kinds, Condition.sets, List.filter_cons, List.filter_nil]
    cases c.all.isSome <;> cases c.any.isSome <;> cases c.not.isSome <;>
      cases c.onMatch.isSome <;> rfl
  simp only [classify, hkinds]
  rcases c.kinds with _ | ⟨kind, _ | ⟨kind', kinds⟩⟩
  · exact .inr ⟨by simp, _, rfl⟩
  · exact .inl ⟨kind, rfl, rfl⟩
  · exact .inr ⟨by simp, _, rfl⟩

/-- The field names the first node of a list that is not proper, and the mistake in it. -/
def FirstMistake (ns : List (String × Condition F)) (field : String) : Prop :=
  ∃ pre n post, ns = pre ++ n :: post ∧ (∀ m ∈ pre, m.2.Proper lib) ∧ ¬n.2.Proper lib ∧
    field = n.1 ++ n.2.mistake

/-- The outcome of compiling some nodes: all of them are proper and the result is good, or the first
mistake in them is reported. -/
def Checks {α : Type} (ns : List (String × Condition F)) (good : α → Prop)
    (r : Except RuleError α) : Prop :=
  (∃ x, r = .ok x ∧ good x ∧ ∀ n ∈ ns, n.2.Proper lib) ∨
    ∃ err, r = .error err ∧ FirstMistake lib ns err.field

namespace Checks

variable {lib} {α β : Type} {ns ns' : List (String × Condition F)} {good : α → Prop}
  {good' : β → Prop} {r : Except RuleError α}

theorem map {f : α → β} (h : Checks lib ns good r) (hf : ∀ x, good x → good' (f x)) :
    Checks lib ns good' (r.map f) := by
  obtain ⟨x, rfl, hgood, hns⟩ | ⟨err, rfl, hfirst⟩ := h
  · exact .inl ⟨f x, rfl, hf x hgood, hns⟩
  · exact .inr ⟨err, rfl, hfirst⟩

theorem bind {k : α → Except RuleError β} (h : Checks lib ns good r)
    (hk : ∀ x, good x → Checks lib ns' good' (k x)) : Checks lib (ns ++ ns') good' (r >>= k) := by
  obtain ⟨x, rfl, hgood, hns⟩ | ⟨err, rfl, pre, n, post, rfl, hpre, hn, hfield⟩ := h
  · obtain ⟨y, hy, hgood', hns'⟩ | ⟨err, herr, pre, n, post, rfl, hpre, hn, hfield⟩ := hk x hgood
    · exact .inl ⟨y, hy, hgood', List.forall_mem_append.mpr ⟨hns, hns'⟩⟩
    · exact .inr ⟨err, herr, ns ++ pre, n, post, (List.append_assoc ..).symm,
        List.forall_mem_append.mpr ⟨hns, hpre⟩, hn, hfield⟩
  · exact .inr ⟨err, rfl, pre, n, post ++ ns', List.append_assoc .., hpre, hn, hfield⟩

theorem cons {path : String} {c : Condition F} (hc : c.Proper lib) (h : Checks lib ns good r) :
    Checks lib ((path, c) :: ns) good r := by
  obtain ⟨x, hx, hgood, hns⟩ | ⟨err, herr, pre, n, post, rfl, hpre, hn, hfield⟩ := h
  · exact .inl ⟨x, hx, hgood, List.forall_mem_cons.mpr ⟨hc, hns⟩⟩
  · exact .inr ⟨err, herr, (path, c) :: pre, n, post, rfl, List.forall_mem_cons.mpr ⟨hc, hpre⟩, hn,
      hfield⟩

theorem of_not_proper {path : String} {c : Condition F} {err : RuleError} (hc : ¬c.Proper lib)
    (hr : r = .error err) (hfield : err.field = path ++ c.mistake) :
    Checks lib ((path, c) :: ns) good r :=
  .inr ⟨err, hr, [], (path, c), ns, rfl, List.forall_mem_nil _, hc, hfield⟩

end Checks

namespace Condition

private theorem compileList_checks {cs : List (Condition F)}
    (ih : ∀ c ∈ cs, ∀ path, Checks lib (c.nodes path)
      (fun p => ∀ e, p.eval lib e = c.holds lib e) (c.compileAt lib path))
    (path : String) (i : Nat) :
    Checks lib (nodesList cs path i)
      (fun ps => ∀ e, Predicate.evalAll lib ps e = holdsAll lib cs e ∧
        Predicate.evalAny lib ps e = holdsAny lib cs e) (compileList lib cs path i) := by
  induction cs generalizing i with
  | nil => exact .inl ⟨[], rfl, fun _ => ⟨rfl, rfl⟩, List.forall_mem_nil _⟩
  | cons c cs ihs =>
    obtain ⟨hc, hcs⟩ := List.forall_mem_cons.mp ih
    rw [nodesList, compileList]
    refine (hc _).bind fun p hp => (ihs hcs (i + 1)).map fun ps hps e => ?_
    obtain ⟨hall, hany⟩ := hps e
    exact ⟨by rw [Predicate.evalAll, holdsAll, hp, hall], by
      rw [Predicate.evalAny, holdsAny, hp, hany]⟩

variable {c : Condition F}

private theorem sets_eq_of_kinds {kind : CondKind} (h : c.kinds = [kind]) (kind' : CondKind) :
    c.sets kind' = decide (kind' = kind) := by
  rw [Bool.eq_iff_iff, ← mem_kinds, h, List.mem_singleton, decide_eq_true_iff]

private theorem proper_of_kinds {kind : CondKind} (h : c.kinds = [kind])
    (hscalar : kind = .kindScalar → c.ProperScalar lib)
    (hmatch : kind = .kindMatch → ∀ m ∈ c.onMatch, m.Proper) : c.Proper lib where
  single := by rw [h]; rfl
  scalar hset := hscalar (by simpa [sets_eq_of_kinds h, eq_comm] using hset)
  onMatch m hm := by
    have hset : c.sets .kindMatch = true := Option.isSome_of_mem hm
    exact hmatch (by simpa [sets_eq_of_kinds h, eq_comm] using hset) m hm

private theorem parts_of_kinds {kind : CondKind} (h : c.kinds = [kind]) :
    (c.all.isSome = true ↔ kind = .kindAll) ∧ (c.any.isSome = true ↔ kind = .kindAny) ∧
      (c.not.isSome = true ↔ kind = .kindNot) ∧ (c.onMatch.isSome = true ↔ kind = .kindMatch) ∧
      (c.sets .kindScalar = true ↔ kind = .kindScalar) := by
  have hsets (kind' : CondKind) : c.sets kind' = true ↔ kind = kind' := by
    rw [sets_eq_of_kinds h, decide_eq_true_iff, eq_comm]
  exact ⟨hsets .kindAll, hsets .kindAny, hsets .kindNot, hsets .kindMatch, hsets .kindScalar⟩

private theorem compileMatch_checks (h : c.kinds = [.kindMatch]) {m : Match F}
    (hm : c.onMatch = some m) (path : String) :
    Checks lib [(path, c)] (fun p => ∀ e, p.eval lib e = e.changes.any fun ch => m.Meets lib ch)
      (compileMatch lib m (path ++ ".match")) := by
  by_cases hproper : m.Proper
  · obtain ⟨p, hp, heval⟩ := compileMatch_of_proper lib hproper (path ++ ".match")
    have hc : c.Proper lib := proper_of_kinds lib h nofun fun _ m' hm' =>
      Option.some.inj (hm.symm.trans hm') ▸ hproper
    exact .cons hc (.inl ⟨p, hp, heval, List.forall_mem_nil _⟩)
  · obtain ⟨err, herr, hfield⟩ := compileMatch_of_not_proper lib hproper (path ++ ".match")
    refine .of_not_proper (fun hc => hproper (hc.onMatch m hm)) herr ?_
    have hlength : ¬c.kinds.length ≠ 1 := by rw [h]; decide
    rw [hfield, mistake, if_neg hlength, hm, String.append_assoc]
    dsimp only
    split_ifs <;> rfl

private theorem compileScalar_checks (h : c.kinds = [.kindScalar]) (path : String) :
    Checks lib [(path, c)] (fun p => ∀ e, p.eval lib e = c.holds lib e)
      (compileScalar lib c path) := by
  obtain ⟨hall, hany, hnot, hmatch, hscalar⟩ := parts_of_kinds h
  simp only [reduceCtorEq, iff_false, Option.not_isSome_iff_eq_none] at hall hany hnot hmatch
  by_cases hproper : c.ProperScalar lib
  · obtain ⟨p, field, op, hp, hfield, hop, heval⟩ := compileScalar_of_proper lib hproper path
    refine .cons (proper_of_kinds lib h (fun _ => hproper) nofun)
      (.inl ⟨p, hp, fun e => ?_, List.forall_mem_nil _⟩)
    obtain ⟨all, any, not, _, _, value, onMatch⟩ := c
    cases hall
    cases hany
    cases hnot
    cases hmatch
    simp only [heval, holds, EvalEvent.field?_eq hfield, hop]
  · obtain ⟨err, herr, hfield⟩ := compileScalar_of_not_proper lib hproper path
    refine .of_not_proper (fun hc => hproper (hc.scalar (hscalar.mpr rfl))) herr ?_
    have hlength : ¬c.kinds.length ≠ 1 := by rw [h]; decide
    rw [hfield, mistake, if_neg hlength, hmatch]

/-- **Compiling a tree.** -/
theorem compileAt_checks (c : Condition F) (path : String) :
    Checks lib (c.nodes path) (fun p => ∀ e, p.eval lib e = c.holds lib e)
      (c.compileAt lib path) := by
  induction c using Condition.induction generalizing path with
  | node c ihall ihany ihnot =>
    obtain ⟨kind, hkinds, hclass⟩ | ⟨hkinds, reason, hclass⟩ := classify_cases c path
    · obtain ⟨hall, hany, hnot, hmatch, -⟩ := parts_of_kinds hkinds
      have hproper := proper_of_kinds lib hkinds
      have hleaf := compileMatch_checks lib (c := c)
      have hscalar := compileScalar_checks lib (c := c)
      obtain ⟨all, any, not, field, op, value, onMatch⟩ := c
      rw [nodes, compileAt, hclass]
      -- the part that is set is there, and the others are not
      cases kind with
      | kindAll =>
        obtain ⟨cs, rfl⟩ : ∃ cs, all = some cs := Option.isSome_iff_exists.mp (hall.mpr rfl)
        obtain ⟨rfl, rfl, rfl⟩ : any = none ∧ not = none ∧ onMatch = none := by
          simpa using And.intro hany (And.intro hnot hmatch)
        refine .cons (hproper nofun nofun) ?_
        simp only [nodesSlice, nodesPointer, List.append_nil, compileSlice]
        exact (compileList_checks lib (ihall cs rfl) _ 0).map fun ps hps e => (hps e).1
      | kindAny =>
        obtain ⟨cs, rfl⟩ : ∃ cs, any = some cs := Option.isSome_iff_exists.mp (hany.mpr rfl)
        obtain ⟨rfl, rfl, rfl⟩ : all = none ∧ not = none ∧ onMatch = none := by
          simpa using And.intro hall (And.intro hnot hmatch)
        refine .cons (hproper nofun nofun) ?_
        simp only [nodesSlice, nodesPointer, List.append_nil, List.nil_append, compileSlice]
        exact (compileList_checks lib (ihany cs rfl) _ 0).map fun ps hps e => (hps e).2
      | kindNot =>
        obtain ⟨d, rfl⟩ : ∃ d, not = some d := Option.isSome_iff_exists.mp (hnot.mpr rfl)
        obtain ⟨rfl, rfl, rfl⟩ : all = none ∧ any = none ∧ onMatch = none := by
          simpa using And.intro hall (And.intro hany hmatch)
        refine .cons (hproper nofun nofun) ?_
        simp only [nodesSlice, nodesPointer, List.nil_append, compilePointer]
        exact (ihnot d rfl _).map fun p hp e => congrArg (!·) (hp e)
      | kindMatch =>
        obtain ⟨m, rfl⟩ : ∃ m, onMatch = some m := Option.isSome_iff_exists.mp (hmatch.mpr rfl)
        obtain ⟨rfl, rfl, rfl⟩ : all = none ∧ any = none ∧ not = none := by
          simpa using And.intro hall (And.intro hany hnot)
        exact hleaf hkinds rfl path
      | kindScalar =>
        obtain ⟨rfl, rfl, rfl⟩ : all = none ∧ any = none ∧ not = none := by
          simpa using And.intro hall (And.intro hany hnot)
        exact hscalar hkinds path
    · obtain ⟨all, any, not, field, op, value, onMatch⟩ := c
      rw [nodes, compileAt, hclass]
      refine .of_not_proper (fun h => hkinds h.single) rfl ?_
      rw [mistake, if_pos hkinds, String.append_empty]

theorem forall_proper_of_compileAt {path : String} {p : Predicate F R}
    (h : c.compileAt lib path = .ok p) : ∀ n ∈ c.nodes path, n.2.Proper lib := by
  obtain ⟨-, -, -, hproper⟩ | ⟨err, herr, -⟩ := c.compileAt_checks lib path
  · exact hproper
  · cases herr.symm.trans h

theorem exists_compileAt_of_proper {path : String} (h : ∀ n ∈ c.nodes path, n.2.Proper lib) :
    ∃ p, c.compileAt lib path = .ok p ∧ ∀ e, p.eval lib e = c.holds lib e := by
  obtain ⟨p, hp, heval, -⟩ | ⟨err, -, pre, n, post, hns, -, hn, -⟩ := c.compileAt_checks lib path
  · exact ⟨p, hp, heval⟩
  · exact absurd (h n (hns ▸ List.mem_append_right pre List.mem_cons_self)) hn

/-- A leaf on a scalar field compiles if the operator takes the operand, and compares. -/
theorem exists_compile_leaf {name : String} {field : RuleField} {op : RuleOp} {v : Any F}
    (hfield : RuleField.ofName? name = some field) (htakes : op.Takes lib v) :
    ∃ p, compile lib { field := name, op := op.name, value := v } = .ok p ∧
      ∀ e, p.eval lib e = op.holds lib v (scalarField e field) := by
  let c : Condition F := { field := name, op := op.name, value := v }
  have hkinds : c.kinds = [.kindScalar] := by simp [c, kinds, sets, RuleOp.name_ne_empty]
  have hscalar : c.ProperScalar lib :=
    ⟨Option.isSome_of_mem hfield, op, RuleOp.ofName?_name op, htakes⟩
  have hproper : ∀ n ∈ c.nodes "condition", n.2.Proper lib := by
    have hnodes : c.nodes "condition" = [("condition", c)] := rfl
    rw [hnodes, List.forall_mem_singleton]
    exact proper_of_kinds lib hkinds (fun _ => hscalar) nofun
  obtain ⟨p, hp, heval⟩ := exists_compileAt_of_proper lib hproper
  refine ⟨p, hp, fun e => (heval e).trans ?_⟩
  simp only [c, holds, EvalEvent.field?_eq hfield, RuleOp.ofName?_name]

private theorem map_snd_nodesList {cs : List (Condition F)} (h : ∀ c ∈ cs, ∀ path path',
      (c.nodes path).map Prod.snd = (c.nodes path').map Prod.snd) (path path' : String)
    (i j : Nat) : (nodesList cs path i).map Prod.snd = (nodesList cs path' j).map Prod.snd := by
  induction cs generalizing i j with
  | nil => rfl
  | cons c cs ih =>
    obtain ⟨hc, hcs⟩ := List.forall_mem_cons.mp h
    rw [nodesList, nodesList, List.map_append, List.map_append, hc, ih hcs]

/-- A tree has the same nodes wherever it stands. -/
theorem map_snd_nodes (c : Condition F) (path path' : String) :
    (c.nodes path).map Prod.snd = (c.nodes path').map Prod.snd := by
  induction c using Condition.induction generalizing path path' with
  | node c ihall ihany ihnot =>
    obtain ⟨all, any, not, field, op, value, onMatch⟩ := c
    have hslice : ∀ {o : Option (List (Condition F))}, (∀ cs ∈ o, ∀ c ∈ cs, ∀ path path',
        (c.nodes path).map Prod.snd = (c.nodes path').map Prod.snd) → ∀ path path',
        (nodesSlice o path).map Prod.snd = (nodesSlice o path').map Prod.snd := by
      rintro (_ | cs) h path path'
      · rfl
      · exact map_snd_nodesList (h cs rfl) path path' 0 0
    simp only [nodes, List.map_cons, List.map_append]
    rw [hslice ihall _ (path' ++ ".all"), hslice ihany _ (path' ++ ".any")]
    cases not with
    | none => rfl
    | some c => rw [nodesPointer, nodesPointer, ihnot c rfl _ (path' ++ ".not")]

theorem mem_nodes_self (c : Condition F) (path : String) : (path, c) ∈ c.nodes path := by
  obtain ⟨all, any, not, field, op, value, onMatch⟩ := c
  rw [nodes]
  exact List.mem_cons_self

end Condition

/-- **Conditions mean what their trees say.** A condition compiles exactly if each of its nodes sets
one part and every leaf is well formed. If it does not compile, the error has the address of the
first node, depth first and from left to right, that is not so. If it does, what it compiles to
holds of exactly the events that the tree describes. -/
theorem compile_correct (c : Condition F) :
    ((∃ p, c.compile lib = .ok p) ↔ ∀ n ∈ c.nodes "condition", n.2.Proper lib) ∧
      (∀ err, c.compile lib = .error err → FirstMistake lib (c.nodes "condition") err.field) ∧
      ∀ p, c.compile lib = .ok p → ∀ e, p.eval lib e = c.holds lib e := by
  refine ⟨⟨fun ⟨p, hp⟩ => c.forall_proper_of_compileAt lib hp, fun h => ?_⟩, fun err herr => ?_,
    fun p hp => ?_⟩
  · obtain ⟨p, hp, -⟩ := c.exists_compileAt_of_proper lib h
    exact ⟨p, hp⟩
  · obtain ⟨p, hp, -⟩ | ⟨err', herr', hfirst⟩ := c.compileAt_checks lib "condition"
    · cases hp.symm.trans herr
    · cases herr'.symm.trans herr
      exact hfirst
  · obtain ⟨p', hp', heval⟩ :=
      c.exists_compileAt_of_proper lib (c.forall_proper_of_compileAt lib hp)
    cases hp'.symm.trans hp
    exact heval

end Meaning

end Letopis
