import Letopis.Rules.Meaning
import Letopis.Server.Rules

/-!
# Which members of a request count

A node of a request is written with members: one of `all`, `any`, `not` and `match`, or a field and
an operator with its operand. `compile` refuses a condition with more than one part, but it never
sees one that comes from a request: `toCondition` takes the first member that is set, in a fixed
order, and drops the others with everything below them. So a node with two parts or two operators is
accepted, and holds for the events that its first part describes. The operand of `exists` is dropped
too: `exists: false` says that the field is there.

A member takes part in a node if nodes that set the same members can differ in meaning for it alone.
Of a request that is accepted, every member takes part exactly if every node sets one part, and no
node has the operator `exists` (`nothing_ignored_iff`).
-/

namespace Letopis

open List Function

/-- The members that a node of a request can set. -/
inductive Member where
  | all
  | any
  | not
  | onMatch
  | field
  | operand (op : RuleOp)
  deriving DecidableEq

/-- The members of which a node should set one, in the order in which `toCondition` looks at
them. -/
def Member.parts : List Member :=
  [all, any, not, onMatch] ++ RuleOp.all.map operand

namespace ConditionDTO

section Shape

variable {Raw : Type}

/-- The node of a request sets the member. -/
def sets (d : ConditionDTO Raw) : Member → Bool
  | .all => d.all.isSome
  | .any => d.any.isSome
  | .not => d.not.isSome
  | .onMatch => d.onMatch.isSome
  | .field => d.field ≠ ""
  | .operand op => (d.operand op).isSome

/-- Two nodes have a member in common. -/
def Agrees (d d' : ConditionDTO Raw) : Member → Prop
  | .all => d.all = d'.all
  | .any => d.any = d'.any
  | .not => d.not = d'.not
  | .onMatch => d.onMatch = d'.onMatch
  | .field => d.field = d'.field
  | .operand op => d.operand op = d'.operand op

/-- The first part that the node sets. -/
def first? (d : ConditionDTO Raw) : Option Member := Member.parts.find? d.sets

/-- The first is a node of the second. -/
inductive NodeOf : ConditionDTO Raw → ConditionDTO Raw → Prop
  | self (d : ConditionDTO Raw) : NodeOf d d
  | all {n d e : ConditionDTO Raw} {ds : List (ConditionDTO Raw)} (hds : d.all = some ds)
    (he : e ∈ ds) (h : NodeOf n e) : NodeOf n d
  | any {n d e : ConditionDTO Raw} {ds : List (ConditionDTO Raw)} (hds : d.any = some ds)
    (he : e ∈ ds) (h : NodeOf n e) : NodeOf n d
  | not {n d e : ConditionDTO Raw} (he : d.not = some e) (h : NodeOf n e) : NodeOf n d

/-- A node that sets one part: one of `all`, `any`, `not`, `match` and the operators. A field stands
beside an operator, or it is `changes` and stands beside `match`. -/
structure Single (d : ConditionDTO Raw) : Prop where
  part : ∃! m, m ≠ .field ∧ d.sets m = true
  field : d.field ≠ "" → (∃ op, d.sets (.operand op) = true) ∨
    d.onMatch.isSome = true ∧ d.field = "changes"

end Shape

section Meaning

variable {F R : Type} (lib : Library F R) (wire : Wire F)

/-- The request is accepted, and what it compiles to has this value on the event. -/
def Means (d : ConditionDTO wire.Raw) (e : EvalEvent) (b : Bool) : Prop :=
  ∃ c p, toCondition wire d = .ok c ∧ c.compile lib = .ok p ∧ p.eval lib e = b

/-- A member makes a difference: there are two nodes that set the same members as this one, differ
in this member only, and do not hold for the same events. This node is one of them, unless the
member is the field: no field matters beside an operand that nothing compares with, as the empty
text has it. -/
def TakesPart (d : ConditionDTO wire.Raw) (m : Member) : Prop :=
  ∃ d₁ d₂ : ConditionDTO wire.Raw, d₁.sets = d.sets ∧ d₂.sets = d.sets ∧
    (m ≠ .field → d₁ = d ∨ d₂ = d) ∧ (∀ m' ≠ m, d₁.Agrees d₂ m') ∧
    ∃ e, d₁.Means lib wire e true ∧ d₂.Means lib wire e false

/-- Every member that the node sets takes part, a field `changes` beside `match` apart. -/
def NothingIgnored (d : ConditionDTO wire.Raw) : Prop :=
  ∀ m, d.sets m = true → ¬(m = .field ∧ d.field = "changes" ∧ d.onMatch.isSome = true) →
    d.TakesPart lib wire m

end Meaning

end ConditionDTO

/-- The library tells some values apart: it reads the numerals 0, 1 and 2 as numbers in this order,
and the patterns `a` and `b` as patterns for these letters. -/
structure Library.Discerns {F R : Type} (lib : Library F R) : Prop where
  numbers : ∃ x : Fin 3 → F, (∀ i, lib.parseFloat (toString i.val) = some (x i)) ∧
    ∀ i j, lib.less (x i) (x j) = decide (i < j) ∧ lib.lessEq (x i) (x j) = decide (i ≤ j)
  patterns : ∃ a b, lib.compileRegexp "a" = .ok a ∧ lib.compileRegexp "b" = .ok b ∧
    lib.matchString a "a" = true ∧ lib.matchString a "b" = false ∧ lib.matchString b "a" = false

/-- Texts and lists of texts can be sent. -/
def Wire.CarriesTexts {F : Type} (wire : Wire F) : Prop :=
  ∀ s, wire.Sent (.str s) ∧ wire.Sent (.slice [.str s])

/-! ### The first part decides -/

section First

variable {F R : Type} {lib : Library F R} {wire : Wire F} {d d₁ d₂ : ConditionDTO wire.Raw}

/-- The leaf of an operator and its raw operand. -/
def scalarLeaf (wire : Wire F) (field : String) (op : RuleOp) (raw : wire.Raw) :
    Except String (Condition F) :=
  if op = .opExists then .ok { field, op := op.name }
  else (decodeAny wire raw).map fun v => { field, op := op.name, value := v }

private theorem field_op_of_scalarLeaf {field : String} {op : RuleOp} {raw : wire.Raw}
    {c : Condition F}
    (h : scalarLeaf wire field op raw = .ok c) : c.field = field ∧ c.op = op.name := by
  rw [scalarLeaf] at h
  split_ifs at h
  · cases h
    exact ⟨rfl, rfl⟩
  · obtain ⟨v, -, rfl⟩ := Except.map_eq_ok_iff.mp h
    exact ⟨rfl, rfl⟩

private theorem scalarFrom_of_find? {ops : List RuleOp} {op : RuleOp} {raw : wire.Raw}
    (hfind : ops.find? (fun op => (d.operand op).isSome) = some op)
    (hraw : d.operand op = some raw) :
    scalarFrom wire d ops = scalarLeaf wire d.field op raw := by
  induction ops with
  | nil => cases hfind
  | cons op' ops ih =>
    rw [scalarFrom]
    cases hraw' : d.operand op' with
    | none => exact ih (by simpa [hraw'] using hfind)
    | some raw' =>
      obtain rfl : op' = op := by simpa [hraw'] using hfind
      obtain rfl : raw' = raw := Option.some.inj (hraw'.symm.trans hraw)
      rfl

private theorem scalarFrom_of_none {ops : List RuleOp} (h : ∀ op ∈ ops, d.operand op = none) :
    scalarFrom wire d ops = .ok { field := d.field } := by
  induction ops with
  | nil => rfl
  | cons op ops ih =>
    obtain ⟨hop, hops⟩ := forall_mem_cons.mp h
    rw [scalarFrom, hop]
    exact ih hops

private theorem Member.mem_parts {m : Member} : m ∈ Member.parts ↔ m ≠ .field := by
  cases m with
  | operand op => simp [Member.parts, RuleOp.mem_all]
  | all | any | not | onMatch | field => simp [Member.parts]

namespace ConditionDTO

variable {m : Member}

private theorem sets_of_first? (h : d.first? = some m) : d.sets m = true := find?_some h

private theorem ne_field_of_first? (h : d.first? = some m) : m ≠ .field :=
  Member.mem_parts.mp (mem_of_find?_eq_some h)

private theorem first?_congr (h : d₁.sets = d₂.sets) :
    d₁.first? = d₂.first? := by rw [first?, first?, h]

private theorem Agrees.symm (h : d₁.Agrees d₂ m) : d₂.Agrees d₁ m := by
  cases m <;> exact Eq.symm h

/-- Nodes that set a member, and agree on the others, set the same members. -/
private theorem sets_eq_of_agrees (hset₁ : d₁.sets m = true) (hset₂ : d₂.sets m = true)
    (hagree : ∀ m' ≠ m, d₁.Agrees d₂ m') : d₁.sets = d₂.sets := by
  funext m'
  by_cases heq : m' = m
  · rw [heq, hset₁, hset₂]
  · have h := hagree m' heq
    cases m' <;> simp only [Agrees] at h <;> simp only [sets, h]

private theorem first?_eq_operand {op : RuleOp} : d.first? = some (.operand op) ↔
    d.all = none ∧ d.any = none ∧ d.not = none ∧ d.onMatch = none ∧
      RuleOp.all.find? (fun op => (d.operand op).isSome) = some op := by
  obtain ⟨all, any, not, field, operand, onMatch⟩ := d
  cases all <;> cases any <;> cases not <;> cases onMatch <;>
    simp [first?, Member.parts, sets, comp_def]

private theorem toCondition_of_operand {op : RuleOp} {raw : wire.Raw}
    (h : d.first? = some (.operand op)) (hraw : d.operand op = some raw) :
    toCondition wire d = scalarLeaf wire d.field op raw := by
  obtain ⟨hall, hany, hnot, hmatch, hfind⟩ := first?_eq_operand.mp h
  obtain ⟨all, any, not, field, operand, onMatch⟩ := d
  cases hall
  cases hany
  cases hnot
  cases hmatch
  rw [toCondition]
  exact scalarFrom_of_find? hfind hraw

private theorem toCondition_of_all {ds : List (ConditionDTO wire.Raw)} (hds : d.all = some ds) :
    toCondition wire d = (toConditions wire ds).map fun cs => { all := some cs } := by
  obtain ⟨all, any, not, field, operand, onMatch⟩ := d
  cases hds
  rw [toCondition]

private theorem toCondition_of_any {ds : List (ConditionDTO wire.Raw)} (h : d.first? = some .any)
    (hds : d.any = some ds) :
    toCondition wire d = (toConditions wire ds).map fun cs => { any := some cs } := by
  obtain ⟨_ | _, any, not, field, operand, onMatch⟩ := d
  · cases hds
    rw [toCondition]
  · simp [first?, Member.parts, sets] at h

private theorem toCondition_of_not {e : ConditionDTO wire.Raw} (h : d.first? = some .not)
    (he : d.not = some e) :
    toCondition wire d = (toCondition wire e).map fun c => { not := some c } := by
  obtain ⟨_ | _, _ | _, not, field, operand, onMatch⟩ := d
  · cases he
    rw [toCondition]
  all_goals simp [first?, Member.parts, sets] at h

private theorem toCondition_of_match {m : MatchDTO wire.Raw} (h : d.first? = some .onMatch)
    (hm : d.onMatch = some m) :
    toCondition wire d = (toMatch wire m).map fun m => { onMatch := some m } := by
  obtain ⟨_ | _, _ | _, _ | _, field, operand, onMatch⟩ := d
  · cases hm
    rw [toCondition]
  all_goals simp [first?, Member.parts, sets] at h

private theorem toCondition_of_first?_none (h : d.first? = none) :
    toCondition wire d = .ok { field := d.field } := by
  have hnone (m : Member) (hm : m ≠ .field) : ¬d.sets m = true :=
    find?_eq_none.mp h m (Member.mem_parts.mpr hm)
  obtain ⟨_ | _, _ | _, _ | _, field, operand, _ | _⟩ := d
  · rw [toCondition]
    exact scalarFrom_of_none fun op _ =>
      Option.not_isSome_iff_eq_none.mp (hnone (.operand op) (by simp))
  all_goals simp [first?, Member.parts, sets] at h

/-- Nodes that set the same members have the same condition if they agree on the first part, and on
the field if it is an operator. -/
theorem toCondition_congr (hsets : d₁.sets = d₂.sets) (hm : d₁.first? = some m)
    (hagree : d₁.Agrees d₂ m) (hfield : (∃ op, m = .operand op) → d₁.field = d₂.field) :
    toCondition wire d₁ = toCondition wire d₂ := by
  have hset := sets_of_first? hm
  have hm₂ : d₂.first? = some m := first?_congr hsets ▸ hm
  cases m with
  | all =>
    obtain ⟨ds, hds⟩ := Option.isSome_iff_exists.mp hset
    rw [toCondition_of_all hds, toCondition_of_all (hagree ▸ hds)]
  | any =>
    obtain ⟨ds, hds⟩ := Option.isSome_iff_exists.mp hset
    rw [toCondition_of_any hm hds, toCondition_of_any hm₂ (hagree ▸ hds)]
  | not =>
    obtain ⟨e, he⟩ := Option.isSome_iff_exists.mp hset
    rw [toCondition_of_not hm he, toCondition_of_not hm₂ (hagree ▸ he)]
  | onMatch =>
    obtain ⟨m, hm'⟩ := Option.isSome_iff_exists.mp hset
    rw [toCondition_of_match hm hm', toCondition_of_match hm₂ (hagree ▸ hm')]
  | field => exact absurd rfl (ne_field_of_first? hm)
  | operand op =>
    obtain ⟨raw, hraw⟩ := Option.isSome_iff_exists.mp hset
    rw [toCondition_of_operand hm hraw, toCondition_of_operand hm₂ (hagree ▸ hraw),
      hfield ⟨op, rfl⟩]

private theorem not_takesPart (h : ∀ d₁ d₂ : ConditionDTO wire.Raw, d₁.sets = d.sets →
      d₁.sets = d₂.sets → (∀ m' ≠ m, d₁.Agrees d₂ m') → toCondition wire d₁ = toCondition wire d₂) :
    ¬d.TakesPart lib wire m := by
  rintro ⟨d₁, d₂, hsets₁, hsets₂, -, hagree, e, ⟨c, p, hc, hp, htrue⟩, c', p', hc', hp', hfalse⟩
  have heq := h d₁ d₂ hsets₁ (hsets₁.trans hsets₂.symm) hagree
  cases hc.symm.trans (heq.trans hc')
  cases hp.symm.trans hp'
  cases htrue.symm.trans hfalse

private theorem not_takesPart_of_ne {m' : Member} (hm : d.first? = some m) (hne : m' ≠ m)
    (hfield : m' ≠ .field) : ¬d.TakesPart lib wire m' :=
  not_takesPart fun _ _ hsets hsets' hagree =>
    toCondition_congr hsets' (first?_congr hsets ▸ hm) (hagree m hne.symm)
      fun _ => hagree .field hfield.symm

private theorem not_takesPart_field (hm : d.first? = some m) (hop : ∀ op, m ≠ .operand op) :
    ¬d.TakesPart lib wire .field :=
  not_takesPart fun _ _ hsets hsets' hagree =>
    toCondition_congr hsets' (first?_congr hsets ▸ hm) (hagree m (ne_field_of_first? hm))
      fun ⟨op, h⟩ => absurd h (hop op)

private theorem not_takesPart_exists (hm : d.first? = some (.operand .opExists)) :
    ¬d.TakesPart lib wire (.operand .opExists) := by
  refine not_takesPart fun d₁ d₂ hsets hsets' hagree => ?_
  have hm₁ : d₁.first? = some (.operand .opExists) := first?_congr hsets ▸ hm
  have hm₂ : d₂.first? = some (.operand .opExists) := first?_congr hsets' ▸ hm₁
  obtain ⟨raw₁, hraw₁⟩ := Option.isSome_iff_exists.mp (sets_of_first? hm₁)
  obtain ⟨raw₂, hraw₂⟩ := Option.isSome_iff_exists.mp (sets_of_first? hm₂)
  have hfield : d₁.field = d₂.field := hagree .field nofun
  rw [toCondition_of_operand hm₁ hraw₁, toCondition_of_operand hm₂ hraw₂, hfield]
  rfl

end ConditionDTO

end First

/-! ### Requests that are accepted -/

section Accepted

variable {F R : Type} {lib : Library F R} {wire : Wire F} {d : ConditionDTO wire.Raw}

namespace ConditionDTO

/-- The request has a condition, which compiles wherever it stands in a tree. -/
def Accepted (lib : Library F R) (wire : Wire F) (d : ConditionDTO wire.Raw) : Prop :=
  ∃ c path p, toCondition wire d = .ok c ∧ c.compileAt lib path = .ok p

theorem Accepted.exists_first? (h : d.Accepted lib wire) : ∃ m, d.first? = some m := by
  obtain ⟨c, path, p, hc, hp⟩ := h
  by_contra hnone
  have hfirst : d.first? = none := Option.eq_none_iff_forall_ne_some.mpr (not_exists.mp hnone)
  cases hc.symm.trans (toCondition_of_first?_none hfirst)
  have hproper := Condition.forall_proper_of_compileAt lib hp _ (Condition.mem_nodes_self _ path)
  by_cases hfield : d.field = ""
  · have hsingle := hproper.single
    simp [Condition.kinds, Condition.sets, hfield] at hsingle
  · obtain ⟨-, op, hop, -⟩ :=
      hproper.scalar (Bool.or_eq_true_iff.mpr (.inl (decide_eq_true hfield)))
    cases (show RuleOp.ofName? "" = none by decide).symm.trans hop

theorem Accepted.exists_field (h : d.Accepted lib wire) {op : RuleOp}
    (hm : d.first? = some (.operand op)) : ∃ field, RuleField.ofName? d.field = some field := by
  obtain ⟨c, path, p, hc, hp⟩ := h
  obtain ⟨raw, hraw⟩ := Option.isSome_iff_exists.mp (sets_of_first? hm)
  rw [toCondition_of_operand hm hraw] at hc
  obtain ⟨hfield, hop⟩ := field_op_of_scalarLeaf hc
  have hproper := Condition.forall_proper_of_compileAt lib hp _ (Condition.mem_nodes_self _ path)
  have hscalar : c.sets .kindScalar = true :=
    Bool.or_eq_true_iff.mpr (.inr (decide_eq_true (hop ▸ RuleOp.name_ne_empty op)))
  exact hfield ▸ Option.isSome_iff_exists.mp (hproper.scalar hscalar).1

theorem Accepted.single_of_nothingIgnored (h : d.Accepted lib wire)
    (hd : d.NothingIgnored lib wire) : d.Single ∧ d.operand .opExists = none := by
  obtain ⟨m, hm⟩ := h.exists_first?
  have hunique (m' : Member) (hfield : m' ≠ .field) (hset : d.sets m' = true) : m' = m := by
    by_contra hne
    exact not_takesPart_of_ne hm hne hfield (hd m' hset fun hcon => hfield hcon.1)
  refine ⟨⟨⟨m, ⟨ne_field_of_first? hm, sets_of_first? hm⟩, fun m' hm' => hunique m' hm'.1 hm'.2⟩,
    fun hfield => ?_⟩, ?_⟩
  · by_contra hcon
    rw [not_or] at hcon
    refine not_takesPart_field hm (fun op heq => hcon.1 ⟨op, heq ▸ sets_of_first? hm⟩)
      (hd .field (decide_eq_true hfield) fun hallowed => hcon.2 ⟨hallowed.2.2, hallowed.2.1⟩)
  · by_contra hset
    have hset : d.sets (.operand .opExists) = true := Option.isSome_iff_ne_none.mpr hset
    obtain rfl := hunique (.operand .opExists) nofun hset
    exact not_takesPart_exists hm (hd _ hset fun hcon => Member.noConfusion hcon.1)

end ConditionDTO

private theorem RuleOp.exists_discerned (hlib : lib.Discerns) (hwire : wire.CarriesTexts)
    {op : RuleOp} (hop : op ≠ .opExists) :
    ∃ v v' s s', (wire.Sent v ∧ op.Takes lib v) ∧ (wire.Sent v' ∧ op.Takes lib v') ∧
      op.holds lib v s = true ∧ op.holds lib v' s = false ∧ op.holds lib v s' = false := by
  obtain ⟨x, hparse, hless⟩ := hlib.numbers
  obtain ⟨a, b, ha, hb, haa, hab, hba⟩ := hlib.patterns
  have htexts (s : String) := (hwire s).1
  have hlists (s : String) := (hwire s).2
  have h0 : lib.parseFloat "0" = some (x 0) := hparse 0
  have h1 : lib.parseFloat "1" = some (x 1) := hparse 1
  have h2 : lib.parseFloat "2" = some (x 2) := hparse 2
  cases op with
  | opEq =>
    exact ⟨.str "a", .str "b", "a", "b", ⟨htexts _, trivial⟩, ⟨htexts _, trivial⟩, rfl, rfl, rfl⟩
  | opNe =>
    exact ⟨.str "b", .str "a", "a", "b", ⟨htexts _, trivial⟩, ⟨htexts _, trivial⟩, rfl, rfl, rfl⟩
  | opIn =>
    exact ⟨.slice [.str "a"], .slice [.str "b"], "a", "b", ⟨hlists _, _, rfl⟩, ⟨hlists _, _, rfl⟩,
      rfl, rfl, rfl⟩
  | opGt =>
    refine ⟨.str "0", .str "1", "1", "0", ⟨htexts _, ?_⟩, ⟨htexts _, ?_⟩, ?_⟩ <;>
      simp [Takes, holds, toFloat, compareNum, h0, h1, hless]
  | opGte =>
    refine ⟨.str "1", .str "2", "1", "0", ⟨htexts _, ?_⟩, ⟨htexts _, ?_⟩, ?_⟩ <;>
      simp [Takes, holds, toFloat, compareNum, h0, h1, h2, hless]
  | opLt =>
    refine ⟨.str "1", .str "0", "0", "1", ⟨htexts _, ?_⟩, ⟨htexts _, ?_⟩, ?_⟩ <;>
      simp [Takes, holds, toFloat, compareNum, h0, h1, hless]
  | opLte =>
    refine ⟨.str "1", .str "0", "1", "2", ⟨htexts _, ?_⟩, ⟨htexts _, ?_⟩, ?_⟩ <;>
      simp [Takes, holds, toFloat, compareNum, h0, h1, h2, hless]
  | opRegex =>
    refine ⟨.str "a", .str "b", "a", "b", ⟨htexts _, ?_⟩, ⟨htexts _, ?_⟩, ?_⟩ <;>
      simp [Takes, holds, Any.pattern?, Except.toOption, ha, hb, haa, hab, hba]
  | opExists => exact absurd rfl hop

namespace ConditionDTO

private theorem means_operand {op : RuleOp} {raw : wire.Raw} {v : Any F} {field : RuleField}
    (hm : d.first? = some (.operand op)) (hop : op ≠ .opExists) (hraw : d.operand op = some raw)
    (hv : wire.unmarshal raw = some v) (hfield : RuleField.ofName? d.field = some field)
    (htakes : op.Takes lib v) (e : EvalEvent) :
    d.Means lib wire e (op.holds lib v (scalarField e field)) := by
  obtain ⟨p, hp, heval⟩ := Condition.exists_compile_leaf lib hfield htakes
  refine ⟨_, p, ?_, hp, heval e⟩
  rw [toCondition_of_operand hm hraw, scalarLeaf, if_neg hop, decodeAny_eq_ok.mpr hv]
  rfl

/-! ### Members that take part -/

/-- The event for which two nodes differ that take no field of it into account. -/
def blankEvent (changes : List Change) : EvalEvent := ⟨"", "", "", "", changes⟩

/-- An accepted request holds for an event or does not. -/
theorem Accepted.exists_means (h : d.Accepted lib wire) (e : EvalEvent) :
    ∃ b, d.Means lib wire e b := by
  obtain ⟨c, path, p, hc, hp⟩ := h
  have hproper := Condition.forall_proper_of_compileAt lib hp
  have hproper' : ∀ n ∈ c.nodes "condition", n.2.Proper lib := by
    intro n hn
    have hmem := mem_map_of_mem (f := Prod.snd) hn
    rw [c.map_snd_nodes "condition" path] at hmem
    obtain ⟨n', hn', heq⟩ := mem_map.mp hmem
    exact heq ▸ hproper n' hn'
  obtain ⟨p', hp', -⟩ := Condition.exists_compileAt_of_proper lib hproper'
  exact ⟨_, c, p', hc, hp', rfl⟩

/-- Of two nodes that differ from an accepted one in its first part only, and from each other for
some event, one differs from the accepted one for that event. -/
theorem Accepted.takesPart_of (h : d.Accepted lib wire) {m : Member} (hm : d.first? = some m)
    (d₁ d₂ : ConditionDTO wire.Raw) (hset : d₁.sets m = true ∧ d₂.sets m = true)
    (hagree : ∀ m' ≠ m, d₁.Agrees d m' ∧ d₂.Agrees d m') (e : EvalEvent)
    (htrue : d₁.first? = some m → d₁.Means lib wire e true)
    (hfalse : d₂.first? = some m → d₂.Means lib wire e false) : d.TakesPart lib wire m := by
  have hsets₁ := sets_eq_of_agrees hset.1 (sets_of_first? hm) fun m' hm' => (hagree m' hm').1
  have hsets₂ := sets_eq_of_agrees hset.2 (sets_of_first? hm) fun m' hm' => (hagree m' hm').2
  obtain ⟨b, hb⟩ := h.exists_means e
  cases b with
  | true =>
    exact ⟨d, d₂, rfl, hsets₂, fun _ => .inl rfl, fun m' hm' => (hagree m' hm').2.symm, e, hb,
      hfalse ((first?_congr hsets₂).trans hm)⟩
  | false =>
    exact ⟨d₁, d, hsets₁, rfl, fun _ => .inr rfl, fun m' hm' => (hagree m' hm').1, e,
      htrue ((first?_congr hsets₁).trans hm), hb⟩

/-- The empty `all` holds, one with an empty `any` in it does not. -/
theorem Accepted.takesPart_all (h : d.Accepted lib wire) (hm : d.first? = some .all) :
    d.TakesPart lib wire .all := by
  refine h.takesPart_of hm { d with all := some [] } { d with all := some [{ any := some [] }] }
    ⟨rfl, rfl⟩ (fun m hne => ?_) (blankEvent []) (fun _ => ?_) fun _ => ?_
  · cases m <;> first | exact ⟨rfl, rfl⟩ | exact absurd rfl hne
  · exact ⟨{ all := some [] }, .allPred [], by rw [toCondition_of_all rfl]; rfl, rfl, rfl⟩
  · exact ⟨{ all := some [{ any := some [] }] }, .allPred [.anyPred []], by
      rw [toCondition_of_all rfl]; rfl, rfl, rfl⟩

theorem Accepted.takesPart_any (h : d.Accepted lib wire) (hm : d.first? = some .any) :
    d.TakesPart lib wire .any := by
  refine h.takesPart_of hm { d with any := some [{ all := some [] }] } { d with any := some [] }
    ⟨rfl, rfl⟩ (fun m hne => ?_) (blankEvent []) (fun hfirst => ?_) fun hfirst => ?_
  · cases m <;> first | exact ⟨rfl, rfl⟩ | exact absurd rfl hne
  · exact ⟨{ any := some [{ all := some [] }] }, .anyPred [.allPred []],
      toCondition_of_any hfirst rfl, rfl, rfl⟩
  · exact ⟨{ any := some [] }, .anyPred [], toCondition_of_any hfirst rfl, rfl, rfl⟩

theorem Accepted.takesPart_not (h : d.Accepted lib wire) (hm : d.first? = some .not) :
    d.TakesPart lib wire .not := by
  refine h.takesPart_of hm { d with not := some { any := some [] } }
    { d with not := some { all := some [] } } ⟨rfl, rfl⟩ (fun m hne => ?_) (blankEvent [])
    (fun hfirst => ?_) fun hfirst => ?_
  · cases m <;> first | exact ⟨rfl, rfl⟩ | exact absurd rfl hne
  · exact ⟨{ not := some { any := some [] } }, .notPred (.anyPred []),
      toCondition_of_not hfirst rfl, rfl, rfl⟩
  · exact ⟨{ not := some { all := some [] } }, .notPred (.allPred []),
      toCondition_of_not hfirst rfl, rfl, rfl⟩

/-- A change that adds something meets the criterion `add`, and not `remove`. -/
theorem Accepted.takesPart_match (h : d.Accepted lib wire) (hm : d.first? = some .onMatch) :
    d.TakesPart lib wire .onMatch := by
  refine h.takesPart_of hm { d with onMatch := some { op := "add" } }
    { d with onMatch := some { op := "remove" } } ⟨rfl, rfl⟩ (fun m hne => ?_)
    (blankEvent [⟨"", .add, .null, .null⟩]) (fun hfirst => ?_) fun hfirst => ?_
  · cases m <;> first | exact ⟨rfl, rfl⟩ | exact absurd rfl hne
  · exact ⟨{ onMatch := some ⟨"", "add", .null, .null, false, false⟩ },
      .matchPred ⟨[], "add", .null, false, .null, false⟩, toCondition_of_match hfirst rfl, rfl, rfl⟩
  · exact ⟨{ onMatch := some ⟨"", "remove", .null, .null, false, false⟩ },
      .matchPred ⟨[], "remove", .null, false, .null, false⟩, toCondition_of_match hfirst rfl, rfl,
      rfl⟩

/-- The node with another field and another operand. -/
def withOperand (d : ConditionDTO wire.Raw) (field : String) (op : RuleOp) (raw : wire.Raw) :
    ConditionDTO wire.Raw :=
  { d with field, operand := update d.operand op (some raw) }

private theorem sets_withOperand {op : RuleOp} (hset : d.sets (.operand op) = true)
    (hd : d.field ≠ "") {field : String} (hfield : field ≠ "") (raw : wire.Raw) :
    (d.withOperand field op raw).sets = d.sets := by
  funext m
  cases m with
  | all | any | not | onMatch => rfl
  | field => exact (decide_eq_true hfield).trans (decide_eq_true hd).symm
  | operand op' =>
    by_cases heq : op' = op
    · subst heq
      simp only [sets, withOperand, update_self, Option.isSome_some]
      exact hset.symm
    · simp only [sets, withOperand, update_of_ne heq]

/-- The operand and the field of a leaf that is accepted take part, unless it is `exists`. -/
theorem Accepted.takesPart_operand (hlib : lib.Discerns) (hwire : wire.CarriesTexts)
    (h : d.Accepted lib wire) {op : RuleOp} (hm : d.first? = some (.operand op))
    (hop : op ≠ .opExists) :
    d.TakesPart lib wire (.operand op) ∧ d.TakesPart lib wire .field := by
  obtain ⟨v, v', s, s', ⟨⟨raw, hraw⟩, htakes⟩, ⟨⟨raw', hraw'⟩, htakes'⟩, hvs, hv's, hvs'⟩ :=
    RuleOp.exists_discerned hlib hwire hop
  obtain ⟨field, hfield⟩ := h.exists_field hm
  have hne : d.field ≠ "" := by
    rintro heq
    rw [heq] at hfield
    cases hfield
  have hsets {name : String} (hname : name ≠ "") (raw : wire.Raw) :
      (d.withOperand name op raw).sets = d.sets :=
    sets_withOperand (sets_of_first? hm) hne hname raw
  have hmeans {name : String} {field : RuleField} (hname : RuleField.ofName? name = some field)
      (hne : name ≠ "") {raw : wire.Raw} {v : Any F} (hraw : wire.unmarshal raw = some v)
      (htakes : op.Takes lib v) (e : EvalEvent) :
      (d.withOperand name op raw).Means lib wire e (op.holds lib v (scalarField e field)) :=
    means_operand ((first?_congr (hsets hne raw)).trans hm) hop
      (update_self ..) hraw hname htakes e
  have hagree (raw : wire.Raw) (m : Member) (hm : m ≠ .operand op) :
      (d.withOperand d.field op raw).Agrees d m := by
    cases m with
    | all | any | not | onMatch | field => rfl
    | operand op' =>
      have hop' : op' ≠ op := fun heq => hm (heq ▸ rfl)
      simp only [Agrees, withOperand, update_of_ne hop']
  have hset (raw : wire.Raw) : (d.withOperand d.field op raw).sets (.operand op) = true :=
    (congrFun (hsets hne raw) _).trans (sets_of_first? hm)
  constructor
  · refine h.takesPart_of hm (d.withOperand d.field op raw) (d.withOperand d.field op raw')
      ⟨hset raw, hset raw'⟩ (fun m hm => ⟨hagree raw m hm, hagree raw' m hm⟩) ⟨s, s, s, s, []⟩
      (fun _ => ?_) fun _ => ?_
    · have htrue := hmeans hfield hne hraw htakes ⟨s, s, s, s, []⟩
      cases field <;> exact hvs ▸ htrue
    · have hfalse := hmeans hfield hne hraw' htakes' ⟨s, s, s, s, []⟩
      cases field <;> exact hv's ▸ hfalse
  · refine ⟨d.withOperand "op" op raw, d.withOperand "source" op raw, hsets (by decide) raw,
      hsets (by decide) raw, fun hfield => absurd rfl hfield, fun m hm => ?_, ⟨s, "", "", s', []⟩,
      ?_, ?_⟩
    · cases m <;> first | rfl | exact absurd rfl hm
    · exact hvs ▸ hmeans (show RuleField.ofName? "op" = some .fieldOp by decide) (by decide) hraw
        htakes ⟨s, "", "", s', []⟩
    · exact hvs' ▸ hmeans (show RuleField.ofName? "source" = some .fieldSource by decide)
        (by decide) hraw htakes ⟨s, "", "", s', []⟩

theorem Accepted.nothingIgnored_of_single (hlib : lib.Discerns) (hwire : wire.CarriesTexts)
    (h : d.Accepted lib wire) (hd : d.Single) (hexists : d.operand .opExists = none) :
    d.NothingIgnored lib wire := by
  obtain ⟨m, hm⟩ := h.exists_first?
  have hunique (m' : Member) (hfield : m' ≠ .field) (hset : d.sets m' = true) : m' = m :=
    hd.part.unique ⟨hfield, hset⟩ ⟨ne_field_of_first? hm, sets_of_first? hm⟩
  have hop {op : RuleOp} (heq : m = .operand op) : op ≠ .opExists := by
    rintro rfl
    have hset := sets_of_first? hm
    rw [heq, sets, hexists] at hset
    cases hset
  intro m' hset hallowed
  by_cases hfield : m' = .field
  · subst hfield
    obtain ⟨op, hset'⟩ | ⟨hmatch, hchanges⟩ := hd.field (of_decide_eq_true hset)
    · obtain rfl := hunique (.operand op) nofun hset'
      exact (h.takesPart_operand hlib hwire hm (hop rfl)).2
    · exact absurd ⟨rfl, hchanges, hmatch⟩ hallowed
  · obtain rfl := hunique m' hfield hset
    cases m' with
    | all => exact h.takesPart_all hm
    | any => exact h.takesPart_any hm
    | not => exact h.takesPart_not hm
    | onMatch => exact h.takesPart_match hm
    | field => exact absurd rfl hfield
    | operand op => exact (h.takesPart_operand hlib hwire hm (hop rfl)).1

/-! ### Trees -/

private theorem forall_nodes_iff {P : ConditionDTO wire.Raw → Prop} :
    (∀ n, n.NodeOf d → P n) ↔ P d ∧ (∀ ds ∈ d.all, ∀ e ∈ ds, ∀ n, n.NodeOf e → P n) ∧
      (∀ ds ∈ d.any, ∀ e ∈ ds, ∀ n, n.NodeOf e → P n) ∧ ∀ e ∈ d.not, ∀ n, n.NodeOf e → P n := by
  constructor
  · intro h
    exact ⟨h d (.self d), fun ds hds e he n hn => h n (.all hds he hn),
      fun ds hds e he n hn => h n (.any hds he hn), fun e he n hn => h n (.not he hn)⟩
  · rintro ⟨hself, hall, hany, hnot⟩ n hn
    cases hn with
    | self => exact hself
    | all hds he hn => exact hall _ hds _ he n hn
    | any hds he hn => exact hany _ hds _ he n hn
    | not he hn => exact hnot _ he n hn

private theorem accepted_of_compileList {ds : List (ConditionDTO wire.Raw)}
    {cs : List (Condition F)}
    {path : String} {i : Nat} {ps : List (Predicate F R)} (hcs : toConditions wire ds = .ok cs)
    (hps : Condition.compileList lib cs path i = .ok ps) : ∀ e ∈ ds, e.Accepted lib wire := by
  induction ds generalizing cs i ps with
  | nil => exact forall_mem_nil _
  | cons d ds ih =>
    obtain ⟨c, hc, hbind⟩ := Except.bind_eq_ok_iff.mp hcs
    obtain ⟨cs', hcs', heq⟩ := Except.bind_eq_ok_iff.mp hbind
    cases heq
    rw [Condition.compileList] at hps
    obtain ⟨p, hp, hbind⟩ := Except.bind_eq_ok_iff.mp hps
    obtain ⟨ps', hps', -⟩ := Except.bind_eq_ok_iff.mp hbind
    exact forall_mem_cons.mpr ⟨⟨c, _, p, hc, hp⟩, ih hcs' hps'⟩

theorem Accepted.children (h : d.Accepted lib wire) (hd : d.Single) :
    (∀ ds ∈ d.all, ∀ e ∈ ds, e.Accepted lib wire) ∧
      (∀ ds ∈ d.any, ∀ e ∈ ds, e.Accepted lib wire) ∧ ∀ e ∈ d.not, e.Accepted lib wire := by
  obtain ⟨m, hm⟩ := h.exists_first?
  have hfirst (m' : Member) (hfield : m' ≠ .field) (hset : d.sets m' = true) :
      d.first? = some m' :=
    hd.part.unique ⟨ne_field_of_first? hm, sets_of_first? hm⟩ ⟨hfield, hset⟩ ▸ hm
  obtain ⟨c, path, p, hc, hp⟩ := h
  refine ⟨fun ds hds => ?_, fun ds hds => ?_, fun e he => ?_⟩
  · rw [toCondition_of_all hds] at hc
    obtain ⟨cs, hcs, rfl⟩ := Except.map_eq_ok_iff.mp hc
    obtain ⟨ps, hps, -⟩ := Except.map_eq_ok_iff.mp hp
    exact accepted_of_compileList hcs hps
  · rw [toCondition_of_any (hfirst .any nofun (Option.isSome_of_mem hds)) hds] at hc
    obtain ⟨cs, hcs, rfl⟩ := Except.map_eq_ok_iff.mp hc
    obtain ⟨ps, hps, -⟩ := Except.map_eq_ok_iff.mp hp
    exact accepted_of_compileList hcs hps
  · rw [toCondition_of_not (hfirst .not nofun (Option.isSome_of_mem he)) he] at hc
    obtain ⟨c', hc', rfl⟩ := Except.map_eq_ok_iff.mp hc
    obtain ⟨p', hp', -⟩ := Except.map_eq_ok_iff.mp hp
    exact ⟨c', _, p', hc', hp'⟩

theorem Accepted.nothingIgnored_iff (hlib : lib.Discerns) (hwire : wire.CarriesTexts)
    (h : d.Accepted lib wire) :
    (∀ n : ConditionDTO wire.Raw, n.NodeOf d → n.NothingIgnored lib wire) ↔
      ∀ n : ConditionDTO wire.Raw, n.NodeOf d → n.Single ∧ n.operand .opExists = none := by
  induction d using ConditionDTO.induction with
  | node d ihall ihany ihnot =>
    rw [forall_nodes_iff, forall_nodes_iff]
    have hnode : d.NothingIgnored lib wire ↔ d.Single ∧ d.operand .opExists = none :=
      ⟨h.single_of_nothingIgnored, fun hd => h.nothingIgnored_of_single hlib hwire hd.1 hd.2⟩
    rw [hnode]
    refine and_congr_right fun hd => ?_
    obtain ⟨hall, hany, hnot⟩ := h.children hd.1
    refine and_congr ?_ (and_congr ?_ ?_)
    · exact forall₄_congr fun ds hds e he => ihall ds hds e he (hall ds hds e he)
    · exact forall₄_congr fun ds hds e he => ihany ds hds e he (hany ds hds e he)
    · exact forall₂_congr fun e he => ihnot e he (hnot e he)

end ConditionDTO

end Accepted

/-- **What is ignored.** Of a request that is accepted, every member takes part in what is compiled,
a field `changes` beside `match` apart, exactly if every node sets one part and none has the
operator `exists`. -/
theorem nothing_ignored_iff {F R : Type} {lib : Library F R} {wire : Wire F} (hlib : lib.Discerns)
    (hwire : wire.CarriesTexts) {d : ConditionDTO wire.Raw} {c : Condition F} {p : Predicate F R}
    (hc : toCondition wire d = .ok c) (hp : c.compile lib = .ok p) :
    (∀ n : ConditionDTO wire.Raw, n.NodeOf d → n.NothingIgnored lib wire) ↔
      ∀ n : ConditionDTO wire.Raw, n.NodeOf d → n.Single ∧ n.operand .opExists = none :=
  ConditionDTO.Accepted.nothingIgnored_iff hlib hwire ⟨c, "condition", p, hc, hp⟩

section Samples

/-- Whole numbers, of which numerals of one digit are read. -/
def Library.ofDigits : Library Int String :=
  { Library.ofInts with
    parseFloat := fun s => ((List.range 10).find? fun n => toString n = s).map Int.ofNat }

private theorem discerns_ofDigits : Library.ofDigits.Discerns where
  numbers := ⟨fun i => i.val, by decide, by decide⟩
  patterns := ⟨"a", "b", rfl, rfl, by decide, by decide, by decide⟩

private theorem carriesTexts_ofValues : Wire.ofValues.CarriesTexts := fun _ => ⟨⟨_, rfl⟩, _, rfl⟩

/-- A leaf on a field with an operator. -/
def sampleLeaf (field : String) (op : RuleOp) (v : Any Int) : ConditionDTO Wire.ofValues.Raw where
  field := field
  operand := update (fun _ => none) op (some v)

private theorem sets_sampleLeaf (field : String) (op : RuleOp) (v : Any Int) :
    (sampleLeaf field op v).sets (.operand op) = true := by
  simp only [sampleLeaf, ConditionDTO.sets, update_self]
  rfl

private theorem single_sampleLeaf (field : String) (op : RuleOp) (v : Any Int) :
    (sampleLeaf field op v).Single where
  part := by
    refine ⟨.operand op, ⟨nofun, sets_sampleLeaf field op v⟩, ?_⟩
    rintro m ⟨hfield, hset⟩
    cases m with
    | all | any | not | onMatch => cases hset
    | field => exact absurd rfl hfield
    | operand op' =>
      by_contra hne
      have hop : op' ≠ op := fun heq => hne (heq ▸ rfl)
      simp [sampleLeaf, ConditionDTO.sets, update_of_ne hop] at hset
  field _ := .inl ⟨op, sets_sampleLeaf field op v⟩

/-- A request that is one leaf. -/
theorem nothing_ignored_iff_leaf :
    (sampleLeaf "source" .opEq (.str "crm")).NothingIgnored Library.ofDigits Wire.ofValues := by
  refine (nothing_ignored_iff discerns_ofDigits carriesTexts_ofValues
    (d := sampleLeaf "source" .opEq (.str "crm")) rfl rfl).mpr (fun n hn => ?_) _ (.self _)
  cases hn with
  | self => exact ⟨single_sampleLeaf .., rfl⟩
  | all hds | any hds => cases hds
  | not he => cases he

/-- A leaf with another part. -/
def sampleTwoParts : ConditionDTO Wire.ofValues.Raw :=
  { sampleLeaf "op" .opEq (.str "create") with all := some [] }

/-- A leaf with two operators that exclude one another. -/
def sampleTwoOperators : ConditionDTO Wire.ofValues.Raw where
  field := "op"
  operand op := if op = .opEq ∨ op = .opNe then some (.str "create") else none

/-- A node with two parts is accepted and holds for every event. So is a node with two operators,
and holds if the first one does. A leaf that says that a field does not exist holds if it does. -/
theorem later_members_dropped :
    (sampleTwoParts.sets .all = true ∧ sampleTwoParts.sets (.operand .opEq) = true ∧
      ∀ e, sampleTwoParts.Means Library.ofDigits Wire.ofValues e true) ∧
    (sampleTwoOperators.sets (.operand .opEq) = true ∧
      sampleTwoOperators.sets (.operand .opNe) = true ∧
      sampleTwoOperators.Means Library.ofDigits Wire.ofValues
        ⟨"create", "e1", "u1", "crm", []⟩ true) ∧
    (sampleLeaf "source" .opExists (.bool false)).Means Library.ofDigits Wire.ofValues
      ⟨"create", "e1", "u1", "crm", []⟩ true := by
  refine ⟨⟨rfl, rfl, fun e => ?_⟩, ⟨rfl, rfl, ?_⟩, ?_⟩
  all_goals exact ⟨_, _, rfl, rfl, rfl⟩

end Samples

end Letopis
