import Mathlib.Algebra.Order.Group.Int
import Mathlib.Algebra.Order.Ring.Int
import Mathlib.Data.Int.Init
import Mathlib.Order.Monotone.Basic
import Mathlib.Tactic.Linarith

/-!
# The wait before a retry

A delivery that has failed waits before it is tried again, twice as long each time and not longer
than a cap. The doubling is a shift of a 64-bit duration, which drops the bits that do not fit. The
code takes a shift that comes out negative or zero for one that has left the range, but one that has
left it may also come out positive (`BackoffConfig.Wraps`). And from the sixty-second retry on it is
the cap that counts, though a base of a nanosecond is not out of range there
(`BackoffConfig.CutOff`). `nextDelay_exact_iff` says that these are the only ways to miss the
schedule.
-/

namespace Letopis

/-- `defaultBackoffBase`, in nanoseconds. -/
def defaultBackoffBase : Int := 500 * 1000000

/-- `defaultBackoffMax`, in nanoseconds. -/
def defaultBackoffMax : Int := 30 * 1000000000

/-- The schedule of retries. Durations are `int64`. -/
structure BackoffConfig where
  base : Int
  max : Int
  base_lt : base < 2 ^ 63 := by decide
  max_lt : max < 2 ^ 63 := by decide

/-- `d << n` for a duration. -/
def shiftLeft (d : Int) (n : Nat) : Int := (d * 2 ^ n).bmod (2 ^ 64)

/-- The wait before retry number `attempt`, which starts at zero. -/
def nextDelay (attempt : Int) (cfg : BackoffConfig) (jitter : Option (Int → Int)) : Int :=
  let base := if cfg.base ≤ 0 then defaultBackoffBase else cfg.base
  let maxD := if cfg.max ≤ 0 then defaultBackoffMax else cfg.max
  let d :=
    if 0 ≤ attempt ∧ attempt < 62 then
      let shifted := shiftLeft base attempt.toNat
      if 0 < shifted ∧ shifted < maxD then shifted else maxD
    else maxD
  match jitter with
  | some jitter => jitter d
  | none => d

namespace BackoffConfig

variable (cfg : BackoffConfig)

/-- The schedule over unbounded integers. -/
def schedule (attempt : Nat) : Int := min (cfg.base * 2 ^ attempt) cfg.max

/-- The shift leaves the range and comes out positive, below the cap. -/
def Wraps (attempt : Nat) : Prop :=
  attempt < 62 ∧ 2 ^ 63 ≤ cfg.base * 2 ^ attempt ∧
    0 < shiftLeft cfg.base attempt ∧ shiftLeft cfg.base attempt < cfg.max

/-- The cap counts although the shift would be in the range and below it. -/
def CutOff (attempt : Nat) : Prop := attempt = 62 ∧ cfg.base = 1 ∧ 2 ^ 62 < cfg.max

instance (attempt : Nat) : Decidable (cfg.Wraps attempt) := inferInstanceAs (Decidable (_ ∧ _))

instance (attempt : Nat) : Decidable (cfg.CutOff attempt) := inferInstanceAs (Decidable (_ ∧ _))

end BackoffConfig

/-! ### Shifts -/

private theorem shiftLeft_of_lt {d : Int} {n : Nat} (hd : 0 ≤ d) (h : d * 2 ^ n < 2 ^ 63) :
    shiftLeft d n = d * 2 ^ n := by
  have hpos : 0 ≤ d * 2 ^ n := by positivity
  exact Int.bmod_eq_of_le (by omega) (by omega)

private theorem shiftLeft_neg {d : Int} {n : Nat} (h : 2 ^ 63 ≤ d * 2 ^ n)
    (h' : d * 2 ^ n < 2 ^ 64) : shiftLeft d n < 0 := by
  rw [shiftLeft, Int.bmod_def]
  split_ifs <;> omega

private theorem two_pow_le_shiftLeft {d : Int} {n : Nat} (hn : n ≤ 64) (h : 0 < shiftLeft d n) :
    2 ^ n ≤ shiftLeft d n := by
  have hdvd : (2 : Int) ^ n ∣ shiftLeft d n := by
    have hmod : (2 : Int) ^ n ∣ ((2 ^ 64 : Nat) : Int) := by
      push_cast
      exact pow_dvd_pow 2 hn
    refine (Int.dvd_add_left (hmod.mul_right ((d * 2 ^ n).bdiv (2 ^ 64)))).mp ?_
    rw [shiftLeft, Int.bmod_add_bdiv]
    exact Dvd.intro_left d rfl
  exact Int.le_of_dvd h hdvd

/-! ### The schedule -/

section Schedule

variable {cfg : BackoffConfig}

private theorem nextDelay_eq (hbase : 0 < cfg.base) (hmax : 0 < cfg.max) (attempt : Nat) :
    nextDelay attempt cfg none =
      if attempt < 62 ∧ 0 < shiftLeft cfg.base attempt ∧ shiftLeft cfg.base attempt < cfg.max then
        shiftLeft cfg.base attempt
      else cfg.max := by
  simp only [nextDelay, if_neg (not_le.mpr hbase), if_neg (not_le.mpr hmax), Int.toNat_natCast,
    Int.natCast_nonneg, true_and]
  by_cases hlt : attempt < 62
  · rw [if_pos (by omega)]
    simp only [hlt, true_and]
  · rw [if_neg (by omega)]
    simp only [hlt, false_and, if_false]

variable {attempt : Nat}

private theorem nextDelay_of_lt (hbase : 0 < cfg.base) (hmax : 0 < cfg.max) (hlt : attempt < 62)
    (h : ¬cfg.Wraps attempt) : nextDelay attempt cfg none = cfg.schedule attempt := by
  have hcap := cfg.max_lt
  have hpos : 0 < cfg.base * 2 ^ attempt := by positivity
  rw [nextDelay_eq hbase hmax, BackoffConfig.schedule]
  rcases lt_or_ge (cfg.base * 2 ^ attempt) (2 ^ 63) with hin | hout
  · rw [shiftLeft_of_lt hbase.le hin]
    split_ifs with hless
    · exact (min_eq_left hless.2.2.le).symm
    · exact (min_eq_right (by omega)).symm
  · rw [if_neg fun hwrap => h ⟨hlt, hout, hwrap.2⟩]
    exact (min_eq_right (by omega)).symm

private theorem nextDelay_of_ge (hbase : 0 < cfg.base) (hmax : 0 < cfg.max) (hge : 62 ≤ attempt) :
    nextDelay attempt cfg none = cfg.max := by
  rw [nextDelay_eq hbase hmax, if_neg (by omega)]

private theorem nextDelay_le_max (hbase : 0 < cfg.base) (hmax : 0 < cfg.max) (attempt : Nat) :
    nextDelay attempt cfg none ≤ cfg.max := by
  rw [nextDelay_eq hbase hmax]
  split_ifs with h
  · exact h.2.2.le
  · exact le_rfl

private theorem nextDelay_of_wraps (hbase : 0 < cfg.base) (hmax : 0 < cfg.max)
    (h : cfg.Wraps attempt) :
    nextDelay attempt cfg none < cfg.max ∧ cfg.schedule attempt = cfg.max := by
  have hcap := cfg.max_lt
  obtain ⟨hlt, hout, hpos, hless⟩ := h
  constructor
  · rw [nextDelay_eq hbase hmax, if_pos ⟨hlt, hpos, hless⟩]
    exact hless
  · exact min_eq_right (by omega)

/-- Late retries are on schedule unless the schedule is below the cap even then. -/
theorem schedule_of_ge_iff (hbase : 0 < cfg.base) (hge : 62 ≤ attempt) :
    cfg.schedule attempt = cfg.max ↔ ¬cfg.CutOff attempt := by
  have hcap := cfg.max_lt
  rw [BackoffConfig.schedule, min_eq_right_iff, BackoffConfig.CutOff]
  by_cases hboth : attempt = 62 ∧ cfg.base = 1
  · obtain ⟨rfl, hone⟩ := hboth
    rw [hone]
    omega
  · -- a longer shift or a larger base leaves the range
    have hout : 2 ^ 63 ≤ cfg.base * 2 ^ attempt := by
      rcases Nat.lt_or_ge 62 attempt with hgt | hle
      · have hpow : (2 : Int) ^ 63 ≤ 2 ^ attempt := pow_le_pow_right₀ (by decide) hgt
        nlinarith
      · obtain rfl : attempt = 62 := le_antisymm hle hge
        have htwo : 2 ≤ cfg.base := by omega
        linarith
    exact iff_of_true (by omega) fun hcut => hboth ⟨hcut.1, hcut.2.1⟩

/-- Before a shift can wrap to a positive number, the schedule has reached the cap. -/
theorem schedule_eq_max_of_wraps (h : cfg.Wraps (attempt + 1)) :
    cfg.schedule attempt = cfg.max := by
  have hcap := cfg.max_lt
  obtain ⟨-, hout, hpos, -⟩ := h
  have hdouble : cfg.base * 2 ^ (attempt + 1) = 2 * (cfg.base * 2 ^ attempt) := by
    rw [pow_succ', mul_left_comm]
  refine min_eq_right (not_lt.mp fun hless => ?_)
  exact absurd (shiftLeft_neg hout (by omega)) (by omega)

private theorem not_wraps_of_mul_le (hbase : 0 < cfg.base) (h : cfg.base * cfg.max ≤ 2 ^ 63)
    (attempt : Nat) : ¬cfg.Wraps attempt := by
  rintro ⟨hlt, hout, hpos, hless⟩
  have hbits := two_pow_le_shiftLeft (by omega) hpos
  have hmul : cfg.base * 2 ^ attempt < cfg.base * cfg.max :=
    mul_lt_mul_of_pos_left (hbits.trans_lt hless) hbase
  omega

end Schedule

/-- **The schedule of retries.** For a positive base and a positive cap, the wait before a retry is
the capped exponential exactly if its shift does not wrap to a positive number below the cap and it
is not the retry at which a base of one is cut off. The waits never decrease exactly if no shift
wraps in this way. -/
theorem nextDelay_exact_iff (cfg : BackoffConfig) (hbase : 0 < cfg.base) (hmax : 0 < cfg.max) :
    (∀ attempt : Nat, nextDelay attempt cfg none = min (cfg.base * 2 ^ attempt) cfg.max ↔
      ¬cfg.Wraps attempt ∧ ¬cfg.CutOff attempt) ∧
    ((∀ attempt : Nat, nextDelay attempt cfg none ≤ nextDelay (attempt + 1 : Nat) cfg none) ↔
      ∀ attempt, ¬cfg.Wraps attempt) := by
  refine ⟨fun attempt => ?_, fun hmono attempt hwraps => ?_, fun h attempt => ?_⟩
  · change _ = cfg.schedule attempt ↔ _
    rcases lt_or_ge attempt 62 with hlt | hge
    · have hcut : ¬cfg.CutOff attempt := fun hcut => hlt.ne hcut.1
      by_cases hwraps : cfg.Wraps attempt
      · obtain ⟨hless, heq⟩ := nextDelay_of_wraps hbase hmax hwraps
        exact iff_of_false (by omega) fun h => h.1 hwraps
      · exact iff_of_true (nextDelay_of_lt hbase hmax hlt hwraps) ⟨hwraps, hcut⟩
    · have hwraps : ¬cfg.Wraps attempt := fun hwraps => hge.not_gt hwraps.1
      rw [nextDelay_of_ge hbase hmax hge, eq_comm, schedule_of_ge_iff hbase hge]
      simp [hwraps]
  · -- the first shift that wraps follows a wait that is at the cap
    induction attempt with
    | zero =>
      have hin := cfg.base_lt
      have hout := hwraps.2.1
      rw [pow_zero, mul_one] at hout
      omega
    | succ attempt ih =>
      have hlt : attempt < 62 := (Nat.lt_succ_self attempt).trans hwraps.1
      have hbefore := nextDelay_of_lt hbase hmax hlt ih
      rw [schedule_eq_max_of_wraps hwraps] at hbefore
      have hafter := (nextDelay_of_wraps hbase hmax hwraps).1
      have hstep := hmono attempt
      omega
  · rcases lt_or_ge (attempt + 1) 62 with hlt | hge
    · rw [nextDelay_of_lt hbase hmax ((Nat.lt_succ_self attempt).trans hlt) (h attempt),
        nextDelay_of_lt hbase hmax hlt (h (attempt + 1))]
      exact min_le_min_right _ (mul_le_mul_of_nonneg_left
        (pow_le_pow_right₀ (by decide) (Nat.le_succ attempt)) hbase.le)
    · rw [nextDelay_of_ge hbase hmax hge]
      exact nextDelay_le_max hbase hmax attempt

/-- A tenth of a second, up to two seconds: all waits are on schedule, and they never decrease. -/
theorem nextDelay_exact_iff_short :
    let cfg : BackoffConfig := { base := 100000000, max := 2000000000 }
    (∀ attempt : Nat, nextDelay attempt cfg none = min (cfg.base * 2 ^ attempt) cfg.max) ∧
      ∀ attempt : Nat, nextDelay attempt cfg none ≤ nextDelay (attempt + 1 : Nat) cfg none := by
  intro cfg
  have hwraps : ∀ attempt, ¬cfg.Wraps attempt := not_wraps_of_mul_le (by decide) (by decide)
  have hcut : ∀ attempt, ¬cfg.CutOff attempt := fun attempt h => absurd h.2.1 (by decide)
  obtain ⟨hexact, hmono⟩ := nextDelay_exact_iff cfg (by decide) (by decide)
  exact ⟨fun attempt => (hexact attempt).mpr ⟨hwraps attempt, hcut attempt⟩, hmono.mpr hwraps⟩

/-- A base of one nanosecond more than half the range: the third wait is one of four
nanoseconds. -/
theorem delay_wraps :
    let cfg : BackoffConfig := { base := 2 ^ 62 + 1, max := 2 ^ 63 - 1 }
    nextDelay 0 cfg none = 2 ^ 62 + 1 ∧ nextDelay 2 cfg none = 4 ∧
      min (cfg.base * 2 ^ 2) cfg.max = 2 ^ 63 - 1 := by
  decide

end Letopis
