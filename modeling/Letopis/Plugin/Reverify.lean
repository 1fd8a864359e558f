import Letopis.Plugin.TamperEvidence
import Letopis.Storage.Mapping
import Letopis.Writers.Chain

/-!
# Recomputing the hash of a stored event

The plugin takes the hash of an event before it is stored. Whoever verifies a chain takes it again,
of the event that is read back. On the way the times have been cut off to milliseconds, empty fields
have been left out and values have been through the types of the driver. The canonical form cuts the
time of the source off as well, so that it does not matter, and it leaves out the same fields.

Only that it asks whether there is a time before it cuts it off. A time less than a millisecond
after the zero time is there when the event is written, and is the zero time when it is read. For
every other time the hash is the same (`recheck_iff`).
-/

namespace Letopis

open SortedAssoc List

/-! ### Values of type `any` -/

namespace Json

mutual

/-- The value as `encoding/json` decodes it. -/
def toAny : Json → Any Number
  | .null => .null
  | .bool b => .bool b
  | .num n => .float n
  | .str s => .str s
  | .arr xs => .slice (toAnyList xs)
  | .obj kvs => .map (toAnyFields kvs)

/-- The elements of an array. -/
def toAnyList : List Json → List (Any Number)
  | [] => []
  | x :: xs => x.toAny :: toAnyList xs

/-- The entries of an object. -/
def toAnyFields : Fields → List (String × Any Number)
  | [] => []
  | (k, v) :: kvs => (k, v.toAny) :: toAnyFields kvs

end

private theorem toAnyList_eq (xs : List Json) : toAnyList xs = xs.map toAny := by
  induction xs with
  | nil => rfl
  | cons x xs ih => rw [toAnyList, ih, map_cons]

private theorem toAnyFields_eq (kvs : Fields) : toAnyFields kvs = mapValues toAny kvs := by
  induction kvs with
  | nil => rfl
  | cons p kvs ih => rw [toAnyFields, ih]; rfl

private theorem isJson_toAny {v : Json} (h : v.WF) : v.toAny.IsJson := by
  induction v using Json.induction with
  | null => exact .null
  | bool b => exact .bool b
  | num n => exact .float n
  | str s => exact .str s
  | arr xs ih =>
    rw [toAny, toAnyList_eq]
    exact .slice (forall_mem_map.mpr fun x hx => ih x hx ((wf_arr_iff.mp h).2 x hx))
  | obj kvs ih =>
    obtain ⟨hsorted, hvalues⟩ := wf_obj_iff.mp h
    rw [toAny, toAnyFields_eq]
    refine .map ?_ (forall_mem_map.mpr fun p hp => ih p hp (hvalues p hp))
    rw [sorted_iff_keys, map_fst_mapValues]
    exact sorted_iff_keys.mp hsorted

private theorem json?_toAny (v : Json) : v.toAny.json? id = some v := by
  induction v using Json.induction with
  | null | bool | num | str => rfl
  | arr xs ih =>
    have hxs : Any.jsonElems? id (toAnyList xs) = some xs := by
      induction xs with
      | nil => rfl
      | cons x xs ihxs =>
        obtain ⟨hx, hxs⟩ := forall_mem_cons.mp ih
        rw [toAnyList, Any.jsonElems?, hx, ihxs hxs]
        rfl
    rw [toAny, Any.json?, hxs]
    rfl
  | obj kvs ih =>
    have hkvs : Any.jsonEntries? id (toAnyFields kvs) = some kvs := by
      induction kvs with
      | nil => rfl
      | cons p kvs ihkvs =>
        obtain ⟨hp, hkvs⟩ := forall_mem_cons.mp ih
        rw [toAnyFields, Any.jsonEntries?, hp, ihkvs hkvs]
        rfl
    rw [toAny, Any.json?, hkvs]
    rfl

end Json

/-! ### Events -/

/-- The transition of a name. -/
def EntityOp.ofText? (s : String) : Option EntityOp :=
  [.create, .update, .delete].find? fun op : EntityOp => op.text = s

private theorem EntityOp.ofText?_text (op : EntityOp) : ofText? op.text = some op := by
  cases op <;> decide

/-- The change with values of type `any`. -/
def Change.toAny (c : Change) : AnyChange Number := ⟨c.path, c.op, c.old.toAny, c.new.toAny⟩

/-- The event with values of type `any`: what the storage layer gets. -/
def Event.toAny (ev : Event) : AnyEvent Number where
  entityID := ev.entityID
  version := ev.version
  op := ev.op.text
  author := ev.author
  source := ev.source
  tsSource := ev.tsSource
  tsReceived := ev.tsReceived
  tsStored := ev.tsStored
  eventID := ev.eventID
  requestID := ev.requestID
  changes := ev.changes.map Change.toAny
  metadata := mapValues Json.toAny ev.metadata
  flow := ev.flow
  integrity := ev.integrity

/-- The change of a change with values of type `any`. -/
def AnyChange.change? (c : AnyChange Number) : Option Change := do
  let old ← c.old.json? id
  let new ← c.new.json? id
  return ⟨c.path, c.op, old, new⟩

private theorem mapM_change?_toAny (cs : List Change) :
    (cs.map Change.toAny).mapM AnyChange.change? = some cs := by
  induction cs with
  | nil => rfl
  | cons c cs ih =>
    have hc : c.toAny.change? = some c := by
      rw [AnyChange.change?, Change.toAny, c.old.json?_toAny, c.new.json?_toAny]
      rfl
    rw [map_cons, mapM_cons, hc, ih]
    rfl

namespace HashChain

/-- `ProjectionFromEvent`, of an event with values of type `any`. -/
def projectionFromAny (ev : AnyEvent Number) : Option Projection := do
  let op ← EntityOp.ofText? ev.op
  let changes ← ev.changes.mapM AnyChange.change?
  return ⟨op, ev.entityID, ev.author, ev.source, ev.tsSource, changes, ev.flow⟩

/-- The hash of the event, taken again with its own `prev_hash`, is the one it has. -/
def verified (ev : AnyEvent Number) : Bool :=
  match ev.integrity, projectionFromAny ev with
  | some link, some p => hash link.prevHash p = link.hash
  | _, _ => false

/-- Store the event, read it back and verify it. -/
def recheck (driver : Driver) (ev : Event) : Bool :=
  match reloadEvent driver ev.toAny with
  | some (.ok back) => verified back
  | _ => false

/-! ### What is read back -/

private theorem isJson_of_valued {ev : Event} (h : ev.Valued) : ev.toAny.IsJson := by
  refine ⟨forall_mem_map.mpr fun c hc => ?_, ?_⟩
  · exact ⟨Json.isJson_toAny (h.changes c hc).1, Json.isJson_toAny (h.changes c hc).2⟩
  · have hmeta := Json.isJson_toAny h.metadata
    rwa [Json.toAny, Json.toAnyFields_eq] at hmeta

private theorem recheck_eq (driver : Driver) {prevHash : String} {ev : Event} (h : ev.Valued)
    (hlinks : Links prevHash ev) :
    recheck driver ev = decide (hash prevHash { projectionFromEvent ev with
      tsSource := ev.tsSource.truncate Time.millisecond } =
        hash prevHash (projectionFromEvent ev)) := by
  have hint : ev.integrity = some ⟨hash prevHash (projectionFromEvent ev), prevHash⟩ := hlinks
  rw [recheck, reloadEvent_eq driver (isJson_of_valued h)]
  simp only [verified, projectionFromAny, AnyEvent.truncated, Event.toAny, EntityOp.ofText?_text,
    mapM_change?_toAny, hint]
  rfl

/-! ### What is hashed -/

private theorem truncate_truncate (t : Time) :
    (t.truncate Time.millisecond).truncate Time.millisecond = t.truncate Time.millisecond := by
  simp only [Time.truncate, Time.millisecond, Time.mk.injEq]
  omega

/-- The fields are the same if the time of the source is there before and after it is cut off, or
neither before nor after. -/
theorem fields_truncate {p : Projection}
    (h : (p.tsSource.truncate Time.millisecond).isZero = p.tsSource.isZero) :
    ({ p with tsSource := p.tsSource.truncate Time.millisecond } : Projection).fields =
      p.fields := by
  simp only [Projection.fields, h, truncate_truncate]

/-- What an object takes to be written, with a character more. -/
def weight (kvs : Fields) : Nat :=
  (kvs.map fun p => (quote p.1).length + p.2.encode.length + 2).sum

private theorem weight_cons (p : String × Json) (kvs : Fields) :
    weight (p :: kvs) = (quote p.1).length + p.2.encode.length + 2 + weight kvs := sum_cons

private theorem length_encodeFields {kvs : Fields} (h : kvs ≠ []) :
    (Json.encodeFields kvs).length + 1 = weight kvs := by
  induction kvs with
  | nil => exact absurd rfl h
  | cons p kvs ih =>
    rw [weight_cons]
    cases kvs with
    | nil =>
      simp only [Json.encodeFields, length_append, length_cons, weight, map_nil,
        sum_nil]
      omega
    | cons q kvs =>
      rw [← ih (cons_ne_nil q kvs)]
      simp only [Json.encodeFields, length_append, length_cons]
      omega

private theorem weight_put {key : String} {present : Bool} {value : Json} {m : Fields}
    (hkey : m.lookup key = none) :
    weight (put key present value m) =
      (if present then (quote key).length + value.encode.length + 2 else 0) + weight m := by
  cases present with
  | false => exact (Nat.zero_add _).symm
  | true =>
    have hinsert : weight (SortedAssoc.insert key value m) =
        (quote key).length + value.encode.length + 2 + weight m := by
      induction m with
      | nil => rfl
      | cons p m ih =>
        rw [lookup_cons_eq] at hkey
        split_ifs at hkey with hk
        rw [SortedAssoc.insert]
        split_ifs
        · rfl
        · rw [weight_cons, weight_cons, ih hkey]
          dsimp only
          omega
    exact hinsert

private theorem weight_eq_of_canonicalize {kvs kvs' : Fields} (h : kvs ≠ []) (h' : kvs' ≠ [])
    (heq : canonicalize (.obj kvs) = canonicalize (.obj kvs')) : weight kvs = weight kvs' := by
  have hencode := String.ofList_injective (Text.bytes_injective heq)
  rw [Json.encode, Json.encode] at hencode
  have hlength := congrArg List.length hencode
  simp only [length_cons, length_append] at hlength
  rw [← length_encodeFields h, ← length_encodeFields h']
  omega

private theorem fields_ne_nil (p : Projection) : p.fields ≠ [] := by
  intro h
  have hop := congrArg (List.lookup "op") h
  simp [Projection.fields, lookup_put, lookup_cons_eq] at hop

/-- If the time of the source is there before it is cut off and not after, what is hashed is
not the same. -/
theorem canonical_truncate_ne {p : Projection} (hset : p.tsSource.isZero = false)
    (hcut : (p.tsSource.truncate Time.millisecond).isZero = true) :
    canonical { p with tsSource := p.tsSource.truncate Time.millisecond } ≠ canonical p := by
  intro h
  have hweight := weight_eq_of_canonicalize (fields_ne_nil _) (fields_ne_nil _) h
  -- below the time the fields are the same, and above it they weigh the same
  obtain ⟨m, hm⟩ : ∃ m, m = put "source" (p.source ≠ "") (.str p.source)
      (put "author" (p.author ≠ "") (.str p.author)
        (put "changes" (p.changes ≠ []) (.arr (p.changes.map canonicalChange))
          [("entity_id", .str p.entityID), ("op", .str p.op.text)])) := ⟨_, rfl⟩
  have hflow : m.lookup "flow" = none := by simp [hm, lookup_put, lookup_cons_eq]
  have hts : m.lookup "ts_source" = none := by simp [hm, lookup_put, lookup_cons_eq]
  simp only [Projection.fields, hset, hcut, ← hm] at hweight
  rw [weight_put (by simp [lookup_put, hflow]), weight_put hts,
    weight_put (by simp [lookup_put, hflow]), weight_put hts] at hweight
  simp only [Bool.not_true, Bool.not_false, if_true, Bool.false_eq_true, if_false] at hweight
  omega

/-! ### Stored events -/

private theorem hash_truncate_iff {prevHash : String} {p : Projection}
    (hsha : Separates Sha256.sum256
      [Text.bytes prevHash ++
        canonical { p with tsSource := p.tsSource.truncate Time.millisecond }]
      [Text.bytes prevHash ++ canonical p]) :
    hash prevHash { p with tsSource := p.tsSource.truncate Time.millisecond } = hash prevHash p ↔
      p.tsSource.isZero = true ∨ (p.tsSource.truncate Time.millisecond).isZero = false := by
  constructor
  · intro h
    by_contra hneither
    obtain ⟨hset, hcut⟩ := not_or.mp hneither
    have hmessage := hsha _ mem_cons_self _ mem_cons_self (sum256_eq_of_digest h)
    exact canonical_truncate_ne (Bool.eq_false_iff.mpr hset) (Bool.of_not_eq_false hcut)
      (append_cancel_left hmessage)
  · intro h
    have hsame : (p.tsSource.truncate Time.millisecond).isZero = p.tsSource.isZero := by
      rcases h with hzero | hcut
      · rw [Time.truncate_eq_zero_of_isZero hzero, hzero]
        rfl
      · rw [hcut]
        refine (Bool.eq_false_iff.mpr fun hzero => ?_).symm
        rw [Time.truncate_eq_zero_of_isZero hzero] at hcut
        cases hcut
    rw [hash, hash, canonical, canonical, fields_truncate hsame]

variable {received : Time} {cfg : CollectionConfig} {kind : Kind} {cmd : IngestCommand}
  {cur : Option CurrentState} {ev ev' : Event} {newState : Fields} {deleted : Bool} {c : String}
  {last : Option Event} {pre after : List PreStorePlugin}

/-- **Verifying a stored event.** Take any event that the write path plans for a command, signed by
the plugin and appended under any version, such that SHA-256 does not collide on the two messages.
Read back from the database it verifies if and only if the time of its source is absent, or not
less than a millisecond after the zero time. -/
theorem recheck_iff (driver : Driver)
    (hplan : planEvent received cfg kind cmd cur = .ok (.write ev newState deleted))
    (henabled : (enabledConfig cfg plugin).isSome = true) (hafter : ∀ p ∈ after, p.KeepsIntegrity)
    (hrun : runPreStore cfg c ⟨last, cur⟩ (pre ++ plugin :: after) ev = .ok ev')
    (hvalued : ev'.Valued)
    (hsha : Separates Sha256.sum256
      [Text.bytes (prevHashOf c last) ++ canonical { projectionFromEvent ev' with
        tsSource := ev'.tsSource.truncate Time.millisecond }]
      [Text.bytes (prevHashOf c last) ++ canonical (projectionFromEvent ev')])
    (stored : Time) (top : Nat) :
    recheck driver (ev'.at stored top) = true ↔
      cmd.tsSource.isZero = true ∨ (cmd.tsSource.truncate Time.millisecond).isZero = false := by
  have hlinks : Links (prevHashOf c last) (ev'.at stored top) :=
    (links_runPreStore henabled hafter hrun).of_eq rfl rfl
  have htime : ev'.tsSource = cmd.tsSource := by
    obtain ⟨m, i, rfl⟩ := annotates_runPreStore hrun
    obtain ⟨op, changes, rfl⟩ := planEvent_write hplan
    rfl
  have hvalued' : (ev'.at stored top).Valued := ⟨hvalued.length, hvalued.changes, hvalued.metadata⟩
  rw [recheck_eq driver hvalued' hlinks, decide_eq_true_iff, ← htime]
  exact hash_truncate_iff hsha

private theorem separates_self {α β : Type} (f : α → β) (x : α) : Separates f [x] [x] := by
  intro a ha b hb _
  rw [mem_singleton.mp ha, mem_singleton.mp hb]

/-- A configuration with the plugin. -/
def signing : CollectionConfig := { plugins := [(name, ⟨true, .unset⟩)] }

/-- An entity is created, and its source observed it one and a half milliseconds after the zero
time. -/
theorem recheck_iff_cut_off :
    let cmd : IngestCommand :=
      { collection := "deals", entityID := "42", tsSource := ⟨1500000⟩,
        state := [("a", .bool true)] }
    ∃ ev ev', planEvent .zero signing .state cmd none = .ok (.write ev cmd.state false) ∧
      runPreStore signing "deals" ⟨none, none⟩ [plugin] ev = .ok ev' ∧
      recheck Driver.byKey (ev'.at .zero 0) = true := by
  intro cmd
  let ev : Event := buildEvent .zero cmd .create [⟨"a", .add, .null, .bool true⟩]
  let ev' : Event := { ev with
    integrity := some ⟨hash (genesis "deals") (projectionFromEvent ev), genesis "deals"⟩ }
  have hplan : planEvent .zero signing .state cmd none = .ok (.write ev cmd.state false) := rfl
  have hrun : runPreStore signing "deals" ⟨none, none⟩ ([] ++ plugin :: []) ev = .ok ev' := rfl
  have hvalued : ev'.Valued := ⟨by decide +kernel, by decide +kernel, by decide +kernel⟩
  have hsame : canonical { projectionFromEvent ev' with
      tsSource := ev'.tsSource.truncate Time.millisecond } =
        canonical (projectionFromEvent ev') := by decide +kernel
  exact ⟨ev, ev', hplan, hrun, (recheck_iff Driver.byKey hplan rfl (forall_mem_nil _) hrun
    hvalued (by rw [hsame]; exact separates_self _ _) .zero 0).mpr (.inr rfl)⟩

/-- Its source observed it half a millisecond after the zero time. The event is signed with the
time and verified without it. -/
theorem recheck_fails_near_zero :
    let cmd : IngestCommand :=
      { collection := "deals", entityID := "42", tsSource := ⟨500000⟩,
        state := [("a", .bool true)] }
    ∃ ev ev', planEvent .zero signing .state cmd none = .ok (.write ev cmd.state false) ∧
      runPreStore signing "deals" ⟨none, none⟩ [plugin] ev = .ok ev' ∧
      recheck Driver.byKey (ev'.at .zero 0) = false :=
  ⟨_, _, rfl, rfl, by decide +kernel⟩

end HashChain

end Letopis
