import Letopis.Domain.Event

/-!
# Collection settings

The settings of a collection as an administrator writes them. A setting that is left out is filled
in when the settings are read (`withDefaults`), so what is stored tells what was set from what was
not. `validate` refuses a setting with an unknown value and a negative number.

The write path reads part of the effective settings only; that part is `CollectionConfig`.
-/

namespace Letopis

/-- How a write is carried out. -/
inductive ReliabilityMode where
  | strict
  | durable
  | fast
  deriving DecidableEq

/-- Which time orders the versions. -/
inductive OrderingMode where
  | received
  | source
  deriving DecidableEq

/-- How much history is kept. -/
inductive RetentionType where
  | forever
  | days
  | versions
  deriving DecidableEq

/-- What the failure of a plugin does to the write: nothing, or it rejects it. -/
inductive FailPolicy where
  | failOpen
  | failClosed
  deriving DecidableEq

/-- An enumerated setting as it comes in: left out, one of the known values, or some other text. -/
inductive Setting (κ : Type) where
  | unset
  | known (value : κ)
  | unknown (text : String)
  deriving DecidableEq

namespace Setting

variable {κ : Type}

/-- The setting is left out or has one of the known values. -/
def allowed : Setting κ → Bool
  | .unset | .known _ => true
  | .unknown _ => false

/-- Fill in a setting that is left out. -/
def orDefault (d : κ) : Setting κ → Setting κ
  | .unset => .known d
  | s => s

@[simp] theorem orDefault_orDefault (d : κ) (s : Setting κ) :
    (s.orDefault d).orDefault d = s.orDefault d := by cases s <;> rfl

@[simp] theorem allowed_orDefault (d : κ) (s : Setting κ) :
    (s.orDefault d).allowed = s.allowed := by cases s <;> rfl

end Setting

/-- How much history is kept, with the bound. -/
structure Retention where
  type : Setting RetentionType := .unset
  days : Int := 0
  keep : Int := 0
  deriving DecidableEq

/-- The order of the versions. -/
structure OrderingConfig where
  mode : Setting OrderingMode := .unset
  reorderWindowMS : Int := 0
  deriving DecidableEq

/-- The settings of a plugin. -/
structure StoredPlugin where
  enabled : Bool := false
  failMode : Setting FailPolicy := .unset
  params : Fields := []
  deriving DecidableEq

/-- The settings of a collection. -/
structure StoredConfig where
  name : String
  reliabilityMode : Setting ReliabilityMode := .unset
  /-- A snapshot is taken at every multiple of this version. -/
  snapshotInterval : Int := 0
  retention : Retention := {}
  maxEventSizeBytes : Int := 0
  firstEventOp : Setting FirstEventOp := .unset
  ordering : OrderingConfig := {}
  arrayKeys : List (String × String) := []
  plugins : List (String × StoredPlugin) := []
  deriving DecidableEq

/-- A setting that is refused. -/
structure ConfigError where
  field : String
  reason : String
  deriving DecidableEq

namespace StoredConfig

/-- The checks, in order, each with what it reports. -/
def checks (cfg : StoredConfig) : List (Bool × ConfigError) :=
  [(cfg.reliabilityMode.allowed, ⟨"reliability_mode", "unknown mode"⟩),
    (cfg.firstEventOp.allowed, ⟨"first_event_op", "unknown op"⟩),
    (cfg.ordering.mode.allowed, ⟨"ordering.mode", "unknown mode"⟩),
    (cfg.retention.type.allowed, ⟨"retention.type", "unknown type"⟩),
    (decide (0 ≤ cfg.snapshotInterval), ⟨"snapshot_interval", "must be positive"⟩),
    (decide (0 ≤ cfg.maxEventSizeBytes), ⟨"max_event_size_bytes", "must be positive"⟩)] ++
  cfg.plugins.map fun p =>
    (p.2.failMode.allowed, ⟨"plugins." ++ p.1 ++ ".fail_mode", "unknown fail mode"⟩)

/-- The first setting that is refused. -/
def validate (cfg : StoredConfig) : Except ConfigError Unit :=
  match cfg.checks.find? fun check => !check.1 with
  | some (_, e) => .error e
  | none => .ok ()

/-- Fill in the settings that are left out. -/
def withDefaults (cfg : StoredConfig) : StoredConfig :=
  { cfg with
    reliabilityMode := cfg.reliabilityMode.orDefault .durable
    firstEventOp := cfg.firstEventOp.orDefault .create
    ordering.mode := cfg.ordering.mode.orDefault .received
    snapshotInterval := if cfg.snapshotInterval = 0 then 100 else cfg.snapshotInterval
    retention.type := cfg.retention.type.orDefault .forever
    maxEventSizeBytes := if cfg.maxEventSizeBytes = 0 then 2 ^ 20 else cfg.maxEventSizeBytes }

theorem withDefaults_withDefaults (cfg : StoredConfig) :
    cfg.withDefaults.withDefaults = cfg.withDefaults := by
  have hdefault : ∀ d n : Int, (if (if n = 0 then d else n) = 0 then d else
      if n = 0 then d else n) = if n = 0 then d else n := by
    intro d n
    split_ifs <;> simp_all
  simp [withDefaults, hdefault]

/-- The defaults pass the check: filling them in changes the outcome of no check. -/
theorem validate_withDefaults (cfg : StoredConfig) : cfg.withDefaults.validate = cfg.validate := by
  have hdefault : ∀ d n : Int, 0 ≤ d → ((0 ≤ if n = 0 then d else n) ↔ 0 ≤ n) := by
    intro d n hd
    split_ifs <;> omega
  have hchecks : cfg.withDefaults.checks = cfg.checks := by
    simp [checks, withDefaults, hdefault]
  rw [validate, hchecks, validate]

/-- The part of the effective settings that the write path reads. -/
def effective (cfg : StoredConfig) : CollectionConfig where
  snapshotInterval := cfg.withDefaults.snapshotInterval
  firstEventOp :=
    match cfg.withDefaults.firstEventOp with
    | .known op => op
    | .unset | .unknown _ => .create
  arrayKeys := cfg.arrayKeys
  plugins := cfg.plugins.map fun p => (p.1, {
    enabled := p.2.enabled
    failMode :=
      match p.2.failMode with
      | .known .failOpen => .failOpen
      | .known .failClosed => .failClosed
      | .unset | .unknown _ => .unset })

end StoredConfig

end Letopis
