import Letopis.Domain.Collection
import Letopis.ForMathlib.Except

/-!
# The limit on the size of an event

An administrator may limit the size of the events of a collection. A request body is read up to one
byte more than the limit, so that a body at the limit can be told from one beyond it. The one byte
more is added to a 64-bit number. For the largest of these the sum is negative, the reader takes
that for nothing left to read, and the body passes as an empty one (`readLimited_exact_iff`).
-/

namespace Letopis

/-! ### Settings -/

/-- A text of a request as a setting; the empty one leaves it out. -/
def Setting.ofText {κ : Type} (names : List (String × κ)) (text : String) : Setting κ :=
  if text = "" then .unset
  else match names.lookup text with
    | some value => .known value
    | none => .unknown text

/-- A setting that a request may leave out. -/
def Setting.ofText? {κ : Type} (names : List (String × κ)) : Option String → Setting κ
  | some text => .ofText names text
  | none => .unset

/-- The names of the reliability modes. -/
def reliabilityModes : List (String × ReliabilityMode) :=
  [("strict", .strict), ("durable", .durable), ("fast", .fast)]

/-- The names of the ops of a first event. -/
def firstEventOps : List (String × FirstEventOp) := [("create", .create), ("update", .update)]

/-- The names of the orders. -/
def orderingModes : List (String × OrderingMode) := [("received", .received), ("source", .source)]

/-- The names of the kinds of retention. -/
def retentionTypes : List (String × RetentionType) :=
  [("forever", .forever), ("days", .days), ("versions", .versions)]

/-- The names of the fail modes. -/
def failModes : List (String × FailPolicy) := [("open", .failOpen), ("closed", .failClosed)]

/-- The retention of a request. -/
structure RetentionRequest where
  type : String := ""
  days : Int := 0
  keep : Int := 0

/-- The order of a request. -/
structure OrderingRequest where
  mode : String := ""
  reorderWindowMS : Int := 0

/-- A plugin of a request. -/
structure PluginRequest where
  enabled : Bool := false
  failMode : String := ""
  params : Fields := []

/-- The body of a request that sets the settings of a collection, decoded. -/
structure CollectionConfigRequest where
  reliabilityMode : Option String := none
  /-- A snapshot is taken at every multiple of this version. -/
  snapshotInterval : Option Int := none
  retention : Option RetentionRequest := none
  maxEventSizeBytes : Option Int := none
  firstEventOp : Option String := none
  ordering : Option OrderingRequest := none
  arrayKeys : List (String × String) := []
  plugins : List (String × PluginRequest) := []
  /-- The size of the largest event is an `int64`; the decoder refuses any other number. -/
  maxEventSizeBytes_lt : ∀ n ∈ maxEventSizeBytes, n < 2 ^ 63 := by decide

/-- A number that is set must be positive; one that is left out is zero. -/
def positiveOr (name : String) : Option Int → Except String Int
  | none => .ok 0
  | some n => if n ≤ 0 then .error (name ++ " must be positive") else .ok n

/-- The settings of a request. A body that does not decode is refused before this. -/
def decodeConfigRequest (body : CollectionConfigRequest) (collection : String) :
    Except String StoredConfig := do
  let snapshotInterval ← positiveOr "snapshot_interval" body.snapshotInterval
  let maxEventSizeBytes ← positiveOr "max_event_size_bytes" body.maxEventSizeBytes
  return {
    name := collection
    reliabilityMode := .ofText? reliabilityModes body.reliabilityMode
    snapshotInterval := snapshotInterval
    retention := body.retention.elim {} fun r => ⟨.ofText retentionTypes r.type, r.days, r.keep⟩
    maxEventSizeBytes := maxEventSizeBytes
    firstEventOp := .ofText? firstEventOps body.firstEventOp
    ordering := body.ordering.elim {} fun o => ⟨.ofText orderingModes o.mode, o.reorderWindowMS⟩
    arrayKeys := body.arrayKeys
    plugins := body.plugins.map fun p =>
      (p.1, ⟨p.2.enabled, .ofText failModes p.2.failMode, p.2.params⟩) }

/-! ### Bodies -/

/-- The body of a request as it comes in. -/
structure RequestBody where
  bytes : List UInt8
  broken : Bool := false

/-- `io.ReadAll` of an `io.LimitReader`: at most `n` bytes, and none if `n` is not positive. What is
behind the limit is not looked at. -/
def RequestBody.readAll (body : RequestBody) (n : Int) : Option (List UInt8) :=
  if body.broken ∧ (body.bytes.length : Int) < n then none else some (body.bytes.take n.toNat)

/-- `DefaultMaxEventSizeBytes`. -/
def defaultMaxEventSizeBytes : Int := 2 ^ 20

/-- Read a body up to a limit, or refuse it with a status and a message. -/
def readLimited (max : Int) (body : RequestBody) : Except (Nat × String) (List UInt8) :=
  let max := if max ≤ 0 then defaultMaxEventSizeBytes else max
  match body.readAll ((max + 1).bmod (2 ^ 64)) with
  | none => .error (400, "cannot read request body")
  | some bytes =>
    if max < bytes.length then .error (413, "event exceeds max_event_size_bytes") else .ok bytes

/-- What a limit is for: a longer body is refused, any other one is passed on as it is. -/
def RequestBody.within (body : RequestBody) (limit : Int) : Except (Nat × String) (List UInt8) :=
  if limit < body.bytes.length then .error (413, "event exceeds max_event_size_bytes")
  else if body.broken then .error (400, "cannot read request body")
  else .ok body.bytes

/-! ### The limit -/

private theorem maxEventSizeBytes_of_decode {req : CollectionConfigRequest} {collection : String}
    {cfg : StoredConfig} (h : decodeConfigRequest req collection = .ok cfg) :
    0 ≤ cfg.maxEventSizeBytes ∧ cfg.maxEventSizeBytes < 2 ^ 63 := by
  obtain ⟨interval, -, h⟩ := Except.bind_eq_ok_iff.mp h
  obtain ⟨size, hsize, h⟩ := Except.bind_eq_ok_iff.mp h
  cases h
  cases hreq : req.maxEventSizeBytes with
  | none =>
    rw [hreq] at hsize
    cases hsize
    exact ⟨le_rfl, show (0 : Int) < 2 ^ 63 by decide⟩
  | some n =>
    rw [hreq, positiveOr] at hsize
    split_ifs at hsize with hn
    cases hsize
    exact ⟨(not_le.mp hn).le, req.maxEventSizeBytes_lt _ hreq⟩

/-- Below the largest number the extra byte tells a body at the limit from one beyond it. -/
theorem readLimited_of_lt {max : Int} (h : max < 2 ^ 63 - 1) (body : RequestBody) :
    readLimited max body =
      body.within (if max ≤ 0 then defaultMaxEventSizeBytes else max) := by
  rw [readLimited]
  generalize hlimit : (if max ≤ 0 then defaultMaxEventSizeBytes else max) = limit
  have hpos : 0 < limit ∧ limit < 2 ^ 63 - 1 := by
    rw [← hlimit]
    split_ifs
    · decide
    · omega
  have hsum : (limit + 1).bmod (2 ^ 64) = limit + 1 := Int.bmod_eq_of_le (by omega) (by omega)
  rw [hsum, RequestBody.readAll, RequestBody.within]
  by_cases hlong : limit < body.bytes.length
  · have htake : limit < (body.bytes.take (limit + 1).toNat).length := by
      rw [List.length_take]
      omega
    rw [if_neg (by omega), if_pos hlong]
    exact if_pos htake
  · have htake : body.bytes.take (limit + 1).toNat = body.bytes :=
      List.take_of_length_le (by omega)
    rw [if_neg hlong, htake]
    cases body.broken with
    | true => rw [if_pos ⟨rfl, by omega⟩, if_pos rfl]
    | false =>
      rw [if_neg (by simp), if_neg (by simp)]
      exact if_neg hlong

private theorem readLimited_largest (body : RequestBody) :
    readLimited (2 ^ 63 - 1) body = .ok [] := by
  have hsum : ((2 ^ 63 - 1 : Int) + 1).bmod (2 ^ 64) = -2 ^ 63 := by decide
  have hread : body.readAll (-2 ^ 63) = some [] := by
    rw [RequestBody.readAll, if_neg (by omega)]
    rfl
  rw [readLimited, if_neg (by decide)]
  rw [hsum, hread]
  rfl

/-- **The limit on a body.** For the settings of every request and every body: the body is passed
on as it is if it is within the limit and refused otherwise, exactly if the limit is not the largest
number of 64 bits, or there is nothing to read. -/
theorem readLimited_exact_iff {req : CollectionConfigRequest} {collection : String}
    {cfg : StoredConfig} (h : decodeConfigRequest req collection = .ok cfg) (body : RequestBody) :
    readLimited cfg.maxEventSizeBytes body = body.within
        (if cfg.maxEventSizeBytes ≤ 0 then defaultMaxEventSizeBytes else cfg.maxEventSizeBytes) ↔
      cfg.maxEventSizeBytes ≠ 2 ^ 63 - 1 ∨ body = ⟨[], false⟩ := by
  obtain ⟨hnonneg, hlt⟩ := maxEventSizeBytes_of_decode h
  by_cases hlargest : cfg.maxEventSizeBytes = 2 ^ 63 - 1
  · rw [hlargest, readLimited_largest, if_neg (by decide), RequestBody.within]
    obtain ⟨bytes, broken⟩ := body
    split_ifs with hlong hbroken
    · have hne : bytes ≠ [] := by
        rintro rfl
        exact absurd hlong (show ¬(2 ^ 63 - 1 : Int) < 0 by decide)
      simp [hne]
    · simp_all
    · simp_all [eq_comm]
  · exact iff_of_true (readLimited_of_lt (by omega) body) (.inl hlargest)

/-- Three bytes are read with a limit of three, and refused with one of two. -/
theorem readLimited_exact_iff_small :
    let req : CollectionConfigRequest := { maxEventSizeBytes := some 3 }
    let req' : CollectionConfigRequest := { maxEventSizeBytes := some 2 }
    ∃ cfg cfg', decodeConfigRequest req "deals" = .ok cfg ∧
      decodeConfigRequest req' "deals" = .ok cfg' ∧
      readLimited cfg.maxEventSizeBytes ⟨[1, 2, 3], false⟩ = .ok [1, 2, 3] ∧
      readLimited cfg'.maxEventSizeBytes ⟨[1, 2, 3], false⟩ =
        .error (413, "event exceeds max_event_size_bytes") := by
  intro req req'
  refine ⟨{ name := "deals", maxEventSizeBytes := 3 }, { name := "deals", maxEventSizeBytes := 2 },
    rfl, rfl, ?_, ?_⟩
  · exact (readLimited_exact_iff (show decodeConfigRequest req "deals" = .ok _ from rfl)
      ⟨[1, 2, 3], false⟩).mpr (.inl (by decide))
  · exact (readLimited_exact_iff (show decodeConfigRequest req' "deals" = .ok _ from rfl)
      ⟨[1, 2, 3], false⟩).mpr (.inl (by decide))

/-- The largest limit that can be stored: the body is lost. -/
theorem largest_limit_drops_body :
    let req : CollectionConfigRequest := { maxEventSizeBytes := some (2 ^ 63 - 1) }
    ∃ cfg, decodeConfigRequest req "deals" = .ok cfg ∧ cfg.validate = .ok () ∧
      readLimited cfg.maxEventSizeBytes ⟨[1, 2, 3], false⟩ = .ok [] :=
  ⟨{ name := "deals", maxEventSizeBytes := 2 ^ 63 - 1 }, rfl, by decide, by decide⟩

end Letopis
