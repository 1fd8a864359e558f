import Letopis.Rules.Condition

/-!
# Stored conditions

The condition of a rule is stored as a sub-document (`CondDoc`, `MatchDoc`). What is modelled is the
way there and back: the documents of the repository, how the driver writes them with their tags, how
it reads them, and the conversion of the values it reads, which are of its own types, to those of
`encoding/json`. The driver may list the entries of a map in any order.

A condition whose operands are JSON comes back as it was (`exists_reload`).
-/

namespace Letopis

open SortedAssoc List

/-! ### BSON -/

/-- A BSON value. -/
inductive Bson (F : Type) where
  | null
  | bool (b : Bool)
  | double (x : F)
  | int64 (n : Int)
  | string (s : String)
  | array (xs : List (Bson F))
  | document (es : List (String × Bson F))

/-- The driver of the database: the order in which it writes the entries of a map. -/
structure Driver where
  order {α : Type} : List (String × α) → List (String × α)
  perm {α : Type} (kvs : List (String × α)) : (order kvs).Perm kvs

/-- A driver that writes the entries of a map by key. -/
def Driver.byKey : Driver where
  order := id
  perm _ := List.Perm.refl _

section Values

variable {F : Type} (driver : Driver)

namespace Any

mutual

/-- How the driver writes a value. -/
def toBson : Any F → Bson F
  | .null => .null
  | .bool b => .bool b
  | .float x => .double x
  | .int n => .int64 n
  | .str s => .string s
  | .slice xs | .bsonA xs => .array (toBsonElems xs)
  | .map kvs | .bsonM kvs => .document (driver.order (toBsonEntries kvs))
  | .bsonD kvs => .document (toBsonEntries kvs)

/-- How the driver writes the elements of a slice. -/
def toBsonElems : List (Any F) → List (Bson F)
  | [] => []
  | v :: vs => v.toBson :: toBsonElems vs

/-- How the driver writes the entries of a map. -/
def toBsonEntries : List (String × Any F) → List (String × Bson F)
  | [] => []
  | (k, v) :: kvs => (k, v.toBson) :: toBsonEntries kvs

end

end Any

mutual

/-- What the driver reads into a field of type `any`. -/
def Bson.toAny : Bson F → Any F
  | .null => .null
  | .bool b => .bool b
  | .double x => .float x
  | .int64 n => .int n
  | .string s => .str s
  | .array xs => .bsonA (toAnyElems xs)
  | .document es => .bsonD (toAnyEntries es)

/-- What the driver reads for the elements of an array. -/
def Bson.toAnyElems : List (Bson F) → List (Any F)
  | [] => []
  | b :: bs => b.toAny :: toAnyElems bs

/-- What the driver reads for the elements of a document. -/
def Bson.toAnyEntries : List (String × Bson F) → List (String × Any F)
  | [] => []
  | (k, b) :: es => (k, b.toAny) :: toAnyEntries es

end

mutual

/-- The value in the types of `encoding/json`. -/
def canonicalJSON : Any F → Any F
  | .bsonD kvs | .bsonM kvs | .map kvs => .map (canonicalEntries kvs [])
  | .bsonA xs | .slice xs => .slice (canonicalElems xs)
  | .null => .null
  | .bool b => .bool b
  | .float x => .float x
  | .int n => .int n
  | .str s => .str s

/-- The elements of an array in the types of `encoding/json`. -/
def canonicalElems : List (Any F) → List (Any F)
  | [] => []
  | v :: vs => canonicalJSON v :: canonicalElems vs

/-- Put the entries of a document into a map, in the types of `encoding/json`. -/
def canonicalEntries : List (String × Any F) → List (String × Any F) → List (String × Any F)
  | [], m => m
  | (k, v) :: kvs, m => canonicalEntries kvs (SortedAssoc.insert k (canonicalJSON v) m)

end

private theorem toBsonElems_eq (vs : List (Any F)) :
    Any.toBsonElems driver vs = vs.map (Any.toBson driver) := by
  induction vs with
  | nil => rfl
  | cons v vs ih => rw [Any.toBsonElems, ih, map_cons]

theorem toBsonEntries_eq (kvs : List (String × Any F)) :
    Any.toBsonEntries driver kvs = mapValues (Any.toBson driver) kvs := by
  induction kvs with
  | nil => rfl
  | cons p kvs ih => rw [Any.toBsonEntries, ih]; rfl

private theorem toAnyElems_eq (bs : List (Bson F)) : Bson.toAnyElems bs = bs.map Bson.toAny := by
  induction bs with
  | nil => rfl
  | cons b bs ih => rw [Bson.toAnyElems, ih, map_cons]

theorem toAnyEntries_eq (es : List (String × Bson F)) :
    Bson.toAnyEntries es = mapValues Bson.toAny es := by
  induction es with
  | nil => rfl
  | cons p es ih => rw [Bson.toAnyEntries, ih]; rfl

private theorem canonicalElems_eq (vs : List (Any F)) :
    canonicalElems vs = vs.map canonicalJSON := by
  induction vs with
  | nil => rfl
  | cons v vs ih => rw [canonicalElems, ih, map_cons]

private theorem canonicalEntries_eq (kvs m : List (String × Any F)) :
    canonicalEntries kvs m = overlay m (mapValues canonicalJSON kvs) := by
  induction kvs generalizing m with
  | nil => rfl
  | cons p kvs ih => rw [canonicalEntries, ih]; rfl

/-- `canonicalJSON` undoes what the driver does to a value. -/
theorem canonicalJSON_toAny_toBson {v : Any F} (h : v.IsJson) :
    canonicalJSON (v.toBson driver).toAny = v := by
  induction h with
  | null | bool | float | str => rfl
  | slice _ ih =>
    rw [Any.toBson, Bson.toAny, canonicalJSON, toBsonElems_eq, toAnyElems_eq, canonicalElems_eq,
      map_map, map_map]
    exact congrArg Any.slice ((map_congr_left ih).trans (map_id _))
  | @map kvs hs _ ih =>
    rw [Any.toBson, Bson.toAny, canonicalJSON, toBsonEntries_eq, toAnyEntries_eq,
      canonicalEntries_eq]
    -- whatever the order of the entries, the map is the one that was written
    refine congrArg Any.map (overlay_of_perm hs ?_)
    have hperm : (mapValues canonicalJSON
        (mapValues Bson.toAny (driver.order (mapValues (Any.toBson driver) kvs)))).Perm
        (mapValues canonicalJSON (mapValues Bson.toAny (mapValues (Any.toBson driver) kvs))) :=
      ((driver.perm _).map _).map _
    refine hperm.trans (List.Perm.of_eq ?_)
    rw [mapValues, mapValues, mapValues, map_map, map_map]
    refine (map_congr_left (g := id) fun p hp => ?_).trans (map_id kvs)
    exact Prod.ext rfl (ih p hp)

end Values

/-! ### Documents -/

/-- The stored form of a leaf on the changes. -/
structure MatchDoc (F : Type) where
  path : String := ""
  op : String := ""
  old : Any F := .null
  new : Any F := .null
  hasOld : Bool := false
  hasNew : Bool := false

/-- The stored form of a node. -/
structure CondDoc (F : Type) where
  all : Option (List (CondDoc F)) := none
  any : Option (List (CondDoc F)) := none
  not : Option (CondDoc F) := none
  field : String := ""
  op : String := ""
  value : Any F := .null
  onMatch : Option (MatchDoc F) := none

section Conversion

variable {F : Type}

/-- The document of a leaf on the changes. -/
def toMatchDoc (m : Match F) : MatchDoc F :=
  ⟨m.path, m.op, m.old, m.new, m.hasOld, m.hasNew⟩

/-- The leaf of a document, with its operands in the types of `encoding/json`. -/
def fromMatchDoc (d : MatchDoc F) : Match F :=
  ⟨d.path, d.op, canonicalJSON d.old, canonicalJSON d.new, d.hasOld, d.hasNew⟩

mutual

/-- The document of a condition. -/
def toCondDoc : Condition F → CondDoc F
  | ⟨all, any, not, field, op, value, onMatch⟩ =>
    { field, op, value, all := toCondDocSlice all, any := toCondDocSlice any,
      not := toCondDocPointer not, onMatch := onMatch.map toMatchDoc }

/-- The documents of a slice; nil stays nil. -/
def toCondDocSlice : Option (List (Condition F)) → Option (List (CondDoc F))
  | none => none
  | some cs => some (toCondDocs cs)

/-- The documents of a list. -/
def toCondDocs : List (Condition F) → List (CondDoc F)
  | [] => []
  | c :: cs => toCondDoc c :: toCondDocs cs

/-- The document behind a pointer. -/
def toCondDocPointer : Option (Condition F) → Option (CondDoc F)
  | none => none
  | some c => some (toCondDoc c)

end

mutual

/-- The node of a document, with its operands in the types of `encoding/json`. -/
def fromCondDoc : CondDoc F → Condition F
  | ⟨all, any, not, field, op, value, onMatch⟩ =>
    { field, op, value := canonicalJSON value, all := fromCondDocSlice all,
      any := fromCondDocSlice any, not := fromCondDocPointer not,
      onMatch := onMatch.map fromMatchDoc }

/-- The nodes of a slice; nil stays nil. -/
def fromCondDocSlice : Option (List (CondDoc F)) → Option (List (Condition F))
  | none => none
  | some ds => some (fromCondDocs ds)

/-- The nodes of a list. -/
def fromCondDocs : List (CondDoc F) → List (Condition F)
  | [] => []
  | d :: ds => fromCondDoc d :: fromCondDocs ds

/-- The node behind a pointer. -/
def fromCondDocPointer : Option (CondDoc F) → Option (Condition F)
  | none => none
  | some d => some (fromCondDoc d)

end

end Conversion

/-! ### Writing and reading documents -/

section Codec

variable {F : Type} (driver : Driver)

/-- A field with the tag `omitempty`. -/
def omitEmpty (empty : Bool) (key : String) (v : Bson F) : List (String × Bson F) :=
  if empty then [] else [(key, v)]

/-- How the driver writes a leaf on the changes. -/
def MatchDoc.marshal (d : MatchDoc F) : Bson F :=
  .document [
    [("path", .string d.path)],
    omitEmpty (d.op = "") "op" (.string d.op),
    omitEmpty d.old.isNull "old" (d.old.toBson driver),
    omitEmpty d.new.isNull "new" (d.new.toBson driver),
    omitEmpty (!d.hasOld) "has_old" (.bool d.hasOld),
    omitEmpty (!d.hasNew) "has_new" (.bool d.hasNew)].flatten

mutual

/-- How the driver writes a node. -/
def CondDoc.marshal : CondDoc F → Bson F
  | ⟨all, any, not, field, op, value, onMatch⟩ =>
    .document [
      [("all", marshalSlice all), ("any", marshalSlice any)],
      omitEmpty not.isNone "not" (marshalPointer not),
      omitEmpty (field = "") "field" (.string field),
      omitEmpty (op = "") "op" (.string op),
      omitEmpty value.isNull "value" (value.toBson driver),
      omitEmpty onMatch.isNone "match" (onMatch.elim .null (·.marshal driver))].flatten

/-- How the driver writes a slice of nodes; a nil one is null. -/
def CondDoc.marshalSlice : Option (List (CondDoc F)) → Bson F
  | none => .null
  | some ds => .array (marshalList ds)

/-- How the driver writes a list of nodes. -/
def CondDoc.marshalList : List (CondDoc F) → List (Bson F)
  | [] => []
  | d :: ds => d.marshal :: marshalList ds

/-- How the driver writes the node behind a pointer. -/
def CondDoc.marshalPointer : Option (CondDoc F) → Bson F
  | none => .null
  | some d => d.marshal

end

/-- Read a string. -/
def Bson.string? : Bson F → Option String
  | .string s => some s
  | _ => none

/-- Read a boolean. -/
def Bson.bool? : Bson F → Option Bool
  | .bool b => some b
  | _ => none

/-- Read the fields of a leaf on the changes; other fields are skipped. -/
def MatchDoc.setFields : List (String × Bson F) → MatchDoc F → Option (MatchDoc F)
  | [], d => some d
  | (key, v) :: es, d =>
    if key = "path" then v.string?.bind fun s => setFields es { d with path := s }
    else if key = "op" then v.string?.bind fun s => setFields es { d with op := s }
    else if key = "old" then setFields es { d with old := v.toAny }
    else if key = "new" then setFields es { d with new := v.toAny }
    else if key = "has_old" then v.bool?.bind fun b => setFields es { d with hasOld := b }
    else if key = "has_new" then v.bool?.bind fun b => setFields es { d with hasNew := b }
    else setFields es d

/-- Read a pointer to a leaf on the changes. -/
def MatchDoc.unmarshalPointer : Bson F → Option (Option (MatchDoc F))
  | .null => some none
  | .document es => (setFields es {}).map some
  | _ => none

namespace CondDoc

mutual

/-- Read a node. -/
def unmarshal : Bson F → Option (CondDoc F)
  | .document es => setFields es {}
  | _ => none

/-- Read the fields of a node; other fields are skipped. -/
def setFields : List (String × Bson F) → CondDoc F → Option (CondDoc F)
  | [], d => some d
  | (key, v) :: es, d =>
    if key = "all" then (unmarshalSlice v).bind fun s => setFields es { d with all := s }
    else if key = "any" then (unmarshalSlice v).bind fun s => setFields es { d with any := s }
    else if key = "not" then (unmarshalPointer v).bind fun n => setFields es { d with not := n }
    else if key = "field" then v.string?.bind fun s => setFields es { d with field := s }
    else if key = "op" then v.string?.bind fun s => setFields es { d with op := s }
    else if key = "value" then setFields es { d with value := v.toAny }
    else if key = "match" then
      (MatchDoc.unmarshalPointer v).bind fun m => setFields es { d with onMatch := m }
    else setFields es d

/-- Read a slice of nodes; null is nil. -/
def unmarshalSlice : Bson F → Option (Option (List (CondDoc F)))
  | .null => some none
  | .array bs => (unmarshalList bs).map some
  | _ => none

/-- Read a list of nodes. -/
def unmarshalList : List (Bson F) → Option (List (CondDoc F))
  | [] => some []
  | b :: bs => (unmarshal b).bind fun d => (unmarshalList bs).map (d :: ·)

/-- Read a pointer to a node. -/
def unmarshalPointer : Bson F → Option (Option (CondDoc F))
  | .null => some none
  | .document es => (setFields es {}).map some
  | _ => none

end

end CondDoc

end Codec

/-! ### There and back -/

section Reload

variable {F : Type} (driver : Driver)

/-- Reading on after a field that may have been left out: either way the field has its value. -/
theorem omitEmpty_append {D : Type} {f : List (String × Bson F) → D → Option D} {empty : Bool}
    {key : String} {v : Bson F} {es : List (String × Bson F)} {d : D} (d' : D)
    (hskip : empty = true → d = d') (hset : f ((key, v) :: es) d = f es d') :
    f (omitEmpty empty key v ++ es) d = f es d' := by
  cases empty with
  | true => rw [hskip rfl]; rfl
  | false => exact hset

private theorem toAny_toBson_of_isNull {v : Any F} (h : v.isNull = true) :
    (v.toBson driver).toAny = .null := by
  cases v <;> first | rfl | cases h

private theorem exists_reload_match {m : Match F} (hold : m.old.IsJson) (hnew : m.new.IsJson) :
    ∃ d, MatchDoc.unmarshalPointer ((toMatchDoc m).marshal driver) = some (some d) ∧
      fromMatchDoc d = m := by
  obtain ⟨path, op, old, new, hasOld, hasNew⟩ := m
  refine ⟨⟨path, op, (old.toBson driver).toAny, (new.toBson driver).toAny, hasOld, hasNew⟩, ?_, ?_⟩
  · have hfields : MatchDoc.setFields [
        [("path", .string path)],
        omitEmpty (op = "") "op" (.string op),
        omitEmpty old.isNull "old" (old.toBson driver),
        omitEmpty new.isNull "new" (new.toBson driver),
        omitEmpty (!hasOld) "has_old" (.bool hasOld),
        omitEmpty (!hasNew) "has_new" (.bool hasNew)].flatten {} =
        some ⟨path, op, (old.toBson driver).toAny, (new.toBson driver).toAny, hasOld, hasNew⟩ := by
      refine (omitEmpty_append (⟨path, op, .null, .null, false, false⟩) ?_ rfl).trans ?_
      · simp
      refine (omitEmpty_append (⟨path, op, (old.toBson driver).toAny, .null, false, false⟩)
        ?_ rfl).trans ?_
      · intro h
        rw [toAny_toBson_of_isNull driver h]
      refine (omitEmpty_append (⟨path, op, (old.toBson driver).toAny,
        (new.toBson driver).toAny, false, false⟩) ?_ rfl).trans ?_
      · intro h
        rw [toAny_toBson_of_isNull driver h]
      refine (omitEmpty_append (⟨path, op, (old.toBson driver).toAny,
        (new.toBson driver).toAny, hasOld, false⟩) ?_ rfl).trans ?_
      · simp
      refine (omitEmpty_append (⟨path, op, (old.toBson driver).toAny,
        (new.toBson driver).toAny, hasOld, hasNew⟩) ?_ rfl).trans ?_
      · simp
      rfl
    exact congrArg (Option.map some) hfields
  · rw [fromMatchDoc, canonicalJSON_toAny_toBson driver hold,
      canonicalJSON_toAny_toBson driver hnew]

private theorem unmarshalPointer_marshal (d : CondDoc F) :
    CondDoc.unmarshalPointer (d.marshal driver) =
    (CondDoc.unmarshal (d.marshal driver)).map some := by
  obtain ⟨all, any, not, field, op, value, onMatch⟩ := d
  rw [CondDoc.marshal, CondDoc.unmarshalPointer, CondDoc.unmarshal]

/-- The node comes back as it was. -/
def Reloads (c : Condition F) : Prop :=
  ∃ d, CondDoc.unmarshal ((toCondDoc c).marshal driver) = some d ∧ fromCondDoc d = c

variable {driver}

theorem Reloads.list {cs : List (Condition F)} (h : ∀ c ∈ cs, Reloads driver c) :
    ∃ ds, CondDoc.unmarshalList (CondDoc.marshalList driver (toCondDocs cs)) = some ds ∧
      fromCondDocs ds = cs := by
  induction cs with
  | nil => exact ⟨[], rfl, rfl⟩
  | cons c cs ih =>
    obtain ⟨hc, hcs⟩ := forall_mem_cons.mp h
    obtain ⟨d, hd, hfrom⟩ := hc
    obtain ⟨ds, hds, hfroms⟩ := ih hcs
    refine ⟨d :: ds, ?_, ?_⟩
    · rw [toCondDocs, CondDoc.marshalList, CondDoc.unmarshalList, hd, hds]
      rfl
    · rw [fromCondDocs, hfrom, hfroms]

theorem Reloads.slice {o : Option (List (Condition F))} (h : ∀ cs ∈ o, ∀ c ∈ cs, Reloads driver c) :
    ∃ ds, CondDoc.unmarshalSlice (CondDoc.marshalSlice driver (toCondDocSlice o)) = some ds ∧
      fromCondDocSlice ds = o := by
  cases o with
  | none => exact ⟨none, rfl, rfl⟩
  | some cs =>
    obtain ⟨ds, hds, hfrom⟩ := Reloads.list (h cs rfl)
    refine ⟨some ds, ?_, congrArg some hfrom⟩
    rw [toCondDocSlice, CondDoc.marshalSlice, CondDoc.unmarshalSlice, hds, Option.map_some]

theorem Reloads.pointer {o : Option (Condition F)} (h : ∀ c ∈ o, Reloads driver c) :
    ∃ d, CondDoc.unmarshalPointer (CondDoc.marshalPointer driver (toCondDocPointer o)) = some d ∧
      fromCondDocPointer d = o := by
  cases o with
  | none => exact ⟨none, rfl, rfl⟩
  | some c =>
    obtain ⟨d, hd, hfrom⟩ := h c rfl
    refine ⟨some d, ?_, congrArg some hfrom⟩
    rw [toCondDocPointer, CondDoc.marshalPointer, unmarshalPointer_marshal, hd, Option.map_some]

theorem Reloads.onMatch {o : Option (Match F)} (h : ∀ m ∈ o, m.old.IsJson ∧ m.new.IsJson) :
    ∃ d, MatchDoc.unmarshalPointer
        ((o.map toMatchDoc).elim .null (MatchDoc.marshal driver)) = some d ∧
      d.map fromMatchDoc = o := by
  cases o with
  | none => exact ⟨none, rfl, rfl⟩
  | some m =>
    obtain ⟨d, hd, hfrom⟩ := exists_reload_match driver (h m rfl).1 (h m rfl).2
    exact ⟨some d, hd, congrArg some hfrom⟩

private theorem unmarshal_marshal {all any : Option (List (CondDoc F))} {not : Option (CondDoc F)}
    {field op : String} {value : Any F} {onMatch : Option (MatchDoc F)}
    {all' any' : Option (List (CondDoc F))} {not' : Option (CondDoc F)}
    {onMatch' : Option (MatchDoc F)}
    (hall : CondDoc.unmarshalSlice (CondDoc.marshalSlice driver all) = some all')
    (hany : CondDoc.unmarshalSlice (CondDoc.marshalSlice driver any) = some any')
    (hnot : CondDoc.unmarshalPointer (CondDoc.marshalPointer driver not) = some not')
    (hmatch : MatchDoc.unmarshalPointer (onMatch.elim .null (MatchDoc.marshal driver)) =
      some onMatch') :
    CondDoc.unmarshal (CondDoc.marshal driver ⟨all, any, not, field, op, value, onMatch⟩) =
      some ⟨all', any', not', field, op, (value.toBson driver).toAny, onMatch'⟩ := by
  have hall' : ∀ es, CondDoc.setFields (("all", CondDoc.marshalSlice driver all) ::
      ("any", CondDoc.marshalSlice driver any) :: es) {} =
      CondDoc.setFields es ⟨all', any', none, "", "", .null, none⟩ := by
    intro es
    rw [CondDoc.setFields, if_pos rfl, hall, Option.bind_some, CondDoc.setFields,
      if_neg (by decide), if_pos rfl, hany, Option.bind_some]
  rw [CondDoc.marshal, CondDoc.unmarshal]
  refine (hall' _).trans ?_
  refine (omitEmpty_append ⟨all', any', not', "", "", .null, none⟩ ?_ ?_).trans ?_
  · intro h
    rw [Option.isNone_iff_eq_none.mp h] at hnot
    cases hnot
    rfl
  · rw [CondDoc.setFields, if_neg (by decide), if_neg (by decide), if_pos rfl, hnot,
      Option.bind_some]
  refine (omitEmpty_append ⟨all', any', not', field, "", .null, none⟩ ?_ ?_).trans ?_
  · intro h
    rw [of_decide_eq_true h]
  · rfl
  refine (omitEmpty_append ⟨all', any', not', field, op, .null, none⟩ ?_ ?_).trans ?_
  · intro h
    rw [of_decide_eq_true h]
  · rfl
  refine (omitEmpty_append ⟨all', any', not', field, op, (value.toBson driver).toAny, none⟩
    ?_ ?_).trans ?_
  · intro h
    rw [toAny_toBson_of_isNull driver h]
  · rfl
  refine (omitEmpty_append ⟨all', any', not', field, op, (value.toBson driver).toAny, onMatch'⟩
    ?_ ?_).trans ?_
  · intro h
    rw [Option.isNone_iff_eq_none.mp h] at hmatch
    cases hmatch
    rfl
  · exact congrArg (Option.bind · _) hmatch
  · rfl

theorem Reloads.node {c : Condition F} (hall : ∀ cs ∈ c.all, ∀ d ∈ cs, Reloads driver d)
    (hany : ∀ cs ∈ c.any, ∀ d ∈ cs, Reloads driver d) (hnot : ∀ d ∈ c.not, Reloads driver d)
    (hvalue : c.value.IsJson) (hmatch : ∀ m ∈ c.onMatch, m.old.IsJson ∧ m.new.IsJson) :
    Reloads driver c := by
  obtain ⟨all, any, not, field, op, value, onMatch⟩ := c
  obtain ⟨all', hall, rfl⟩ := Reloads.slice hall
  obtain ⟨any', hany, rfl⟩ := Reloads.slice hany
  obtain ⟨not', hnot, rfl⟩ := Reloads.pointer hnot
  obtain ⟨onMatch', hmatch, rfl⟩ := @Reloads.onMatch F driver onMatch hmatch
  refine ⟨⟨all', any', not', field, op, (value.toBson driver).toAny, onMatch'⟩, ?_, ?_⟩
  · exact unmarshal_marshal hall hany hnot hmatch
  · rw [fromCondDoc, canonicalJSON_toAny_toBson driver hvalue]

/-- Every condition is read back as it was stored. -/
theorem exists_reload (driver : Driver) {c : Condition F} (h : ∀ v ∈ c.operands, v.IsJson) :
    Reloads driver c := by
  induction c using Condition.induction with
  | node c hall hany hnot =>
    refine Reloads.node (fun cs hcs d hd => ?_) (fun cs hcs d hd => ?_) (fun d hd => ?_) ?_ ?_
    · exact hall cs hcs d hd fun v hv => h v (Condition.mem_operands.mpr
        (.inr (.inr (.inl ⟨cs, hcs, d, hd, hv⟩))))
    · exact hany cs hcs d hd fun v hv => h v (Condition.mem_operands.mpr
        (.inr (.inr (.inr (.inl ⟨cs, hcs, d, hd, hv⟩)))))
    · exact hnot d hd fun v hv => h v (Condition.mem_operands.mpr
        (.inr (.inr (.inr (.inr ⟨d, hd, hv⟩)))))
    · exact h _ (Condition.mem_operands.mpr (.inl rfl))
    · intro m hm
      exact ⟨h _ (Condition.mem_operands.mpr (.inr (.inl ⟨m, hm, .inl rfl⟩))),
        h _ (Condition.mem_operands.mpr (.inr (.inl ⟨m, hm, .inr rfl⟩)))⟩

end Reload

end Letopis
