import Mathlib.Data.Int.Log
import Mathlib.Data.List.DropRight
import Mathlib.Data.Rat.Floor
import Mathlib.Tactic.Linarith
import Mathlib.Tactic.NormNum

/-!
# Texts of binary floating-point numbers

A finite double is a sign, a mantissa of 53 bits and an exponent. A decimal identifies it if it is
rounded to it: if it lies between the points half-way to the neighbours, where the points themselves
belong to the value with an even mantissa. The shortest digits that identify a value are found by
trying decimals of one digit, of two digits, and so on, next to it on either side. The general form
of a text has an exponent if the first digit stands for less than `10 ^ -4` or at least `10 ^ 6`.

A whole number below a million is written as its decimal numeral, and no other is
(`Binary64.formatG_eq_toString_iff`).
-/

/-- A finite double. -/
@[ext]
structure Binary64 where
  /-- The sign bit. -/
  neg : Bool
  /-- The mantissa, with the leading bit. -/
  mant : ℕ
  /-- The exponent of the last bit of the mantissa. -/
  exp : ℤ
  mant_lt : mant < 2 ^ 53
  le_exp : -1074 ≤ exp
  exp_le : exp ≤ 971
  /-- The leading bit is set, unless the exponent is the least one. -/
  normal : exp = -1074 ∨ 2 ^ 52 ≤ mant

namespace Binary64

open List

/-- The absolute value. -/
def magnitude (x : Binary64) : ℚ := x.mant * 2 ^ x.exp

/-- The value. -/
def value (x : Binary64) : ℚ := if x.neg then -x.magnitude else x.magnitude

/-! ### Digits -/

/-- The point half-way to the next lower value, which is nearer at a power of two. -/
def lower (x : Binary64) : ℚ :=
  if x.mant = 2 ^ 52 ∧ -1074 < x.exp then (x.mant - 1 / 4) * 2 ^ x.exp
  else (x.mant - 1 / 2) * 2 ^ x.exp

/-- The point half-way to the next higher value. -/
def upper (x : Binary64) : ℚ := (x.mant + 1 / 2) * 2 ^ x.exp

/-- A decimal is rounded to the value. -/
def Identifies (x : Binary64) (q : ℚ) : Prop :=
  if x.mant % 2 = 0 then x.lower ≤ q ∧ q ≤ x.upper else x.lower < q ∧ q < x.upper

instance (x : Binary64) (q : ℚ) : Decidable (x.Identifies q) :=
  inferInstanceAs (Decidable (if x.mant % 2 = 0 then x.lower ≤ q ∧ q ≤ x.upper
    else x.lower < q ∧ q < x.upper))

/-- The exponent of the last of some digits, the first of which has the weight of the first digit of
the value. -/
def lastExp (x : Binary64) (nd : ℕ) : ℤ := Int.log 10 x.magnitude + 1 - nd

/-- The digits of the value that come first. -/
def leading (x : Binary64) (nd : ℕ) : ℕ := ⌊x.magnitude / 10 ^ x.lastExp nd⌋₊

/-- The decimal of so many digits that identifies the value, as digits and the exponent of the last
one. If the next one below and the next one above do, it is the nearer one. -/
def identifying? (x : Binary64) (nd : ℕ) : Option (ℕ × ℤ) :=
  let exp := x.lastExp nd
  let down := x.leading nd
  let mid : ℚ := (down + 1 / 2) * 10 ^ exp
  if x.Identifies (down * 10 ^ exp) then
    if x.Identifies ((down + 1 : ℕ) * 10 ^ exp) ∧
        (mid < x.magnitude ∨ mid = x.magnitude ∧ down % 2 = 1) then some (down + 1, exp)
    else some (down, exp)
  else if x.Identifies ((down + 1 : ℕ) * 10 ^ exp) then some (down + 1, exp)
  else none

/-- The value as a decimal. -/
def exact (x : Binary64) : ℕ × ℤ :=
  if 0 ≤ x.exp then (x.mant * 2 ^ x.exp.toNat, 0) else (x.mant * 5 ^ (-x.exp).toNat, x.exp)

/-- The shortest digits that identify the value. There is always a decimal of 17 digits that
does. -/
def shortest (x : Binary64) : ℕ × ℤ :=
  ((List.range' 1 17).findSome? x.identifying?).getD x.exact

/-! ### Texts -/

/-- Digits without the zeros at the end. -/
def trimZeros (ds : List Char) : List Char := ds.rdropWhile (· = '0')

/-- The text with an exponent of at least two digits, for digits behind a decimal point that is
moved. -/
def formatE (ds : List Char) (point : ℤ) : List Char :=
  let exp := (point - 1).natAbs
  let frac := match ds.tail with
    | [] => []
    | rest => '.' :: rest
  ds.headD '0' :: frac ++ 'e' :: (if point - 1 < 0 then '-' else '+') ::
    (if exp < 10 then '0' :: Nat.toDigits 10 exp else Nat.toDigits 10 exp)

/-- The text without exponent. -/
def formatF (ds : List Char) (point : ℤ) : List Char :=
  let whole := if 0 < point then ds.take point.toNat ++ List.replicate (point.toNat - ds.length) '0'
    else ['0']
  let frac := if point < ds.length then
    '.' :: (List.replicate (-point).toNat '0' ++ ds.drop point.toNat) else []
  whole ++ frac

/-- The general form of some digits. -/
def formatDigits (ds : List Char) (point : ℤ) : List Char :=
  if point - 1 < -4 ∨ 6 ≤ point - 1 then formatE ds point else formatF ds point

/-- The shortest text in the general form, without the sign. -/
def text (x : Binary64) : List Char :=
  if x.mant = 0 then formatDigits [] 0
  else
    let ds := Nat.toDigits 10 x.shortest.1
    formatDigits (trimZeros ds) (ds.length + x.shortest.2)

/-- The shortest text in the general form. -/
def formatG (x : Binary64) : String := String.ofList (if x.neg then '-' :: x.text else x.text)

/-! ### Identifying decimals -/

variable {x : Binary64}

theorem zpow_exp_pos (x : Binary64) : (0 : ℚ) < 2 ^ x.exp :=
  zpow_pos zero_lt_two _

theorem magnitude_nonneg (x : Binary64) : 0 ≤ x.magnitude :=
  mul_nonneg (Nat.cast_nonneg _) x.zpow_exp_pos.le

theorem lower_lt_magnitude (x : Binary64) : x.lower < x.magnitude ∧ x.magnitude < x.upper ∧
    x.magnitude - 2 ^ x.exp / 2 ≤ x.lower ∧ x.upper = x.magnitude + 2 ^ x.exp / 2 := by
  have hpos := x.zpow_exp_pos
  rw [lower, upper, magnitude]
  split_ifs
  all_goals exact ⟨by linarith, by linarith, by linarith, by ring⟩

theorem identifies_magnitude (x : Binary64) : x.Identifies x.magnitude := by
  obtain ⟨hlower, hupper, -, -⟩ := x.lower_lt_magnitude
  rw [Identifies]
  split_ifs
  · exact ⟨hlower.le, hupper.le⟩
  · exact ⟨hlower, hupper⟩

theorem abs_sub_magnitude_le {q : ℚ} (h : x.Identifies q) : |q - x.magnitude| ≤ 2 ^ x.exp / 2 := by
  obtain ⟨-, -, hlower, hupper⟩ := x.lower_lt_magnitude
  have hle : x.lower ≤ q ∧ q ≤ x.upper := by
    rw [Identifies] at h
    split_ifs at h
    · exact h
    · exact ⟨h.1.le, h.2.le⟩
  rw [abs_le]
  exact ⟨by linarith [hle.1], by linarith [hle.2]⟩

/-- The last bit of a value below `2 ^ 52` has a weight below one. -/
theorem zpow_exp_lt_one (h : x.magnitude < 2 ^ 52) : (2 : ℚ) ^ x.exp < 1 := by
  obtain hexp | hmant := x.normal
  · rw [hexp]
    exact zpow_lt_one_of_neg₀ one_lt_two (by norm_num)
  · have hmant : (2 : ℚ) ^ 52 ≤ x.mant := by exact_mod_cast hmant
    by_contra! hone
    have hle : (2 : ℚ) ^ 52 * 1 ≤ x.mant * 2 ^ x.exp :=
      mul_le_mul hmant hone zero_le_one (Nat.cast_nonneg _)
    rw [magnitude] at h
    linarith

/-- A whole number is identified by no other whole number. -/
theorem eq_of_identifies {n m : ℕ} (hn : x.magnitude = n) (hlt : n < 2 ^ 52)
    (h : x.Identifies m) : m = n := by
  have hone : (2 : ℚ) ^ x.exp < 1 := zpow_exp_lt_one (by rw [hn]; exact_mod_cast hlt)
  have habs := abs_sub_magnitude_le h
  rw [hn, abs_le] at habs
  have hle : (m : ℚ) < n + 1 := by linarith [habs.2]
  have hge : (n : ℚ) < m + 1 := by linarith [habs.1]
  have hle' : m < n + 1 := by exact_mod_cast hle
  have hge' : n < m + 1 := by exact_mod_cast hge
  omega

/-! ### The search -/

/-- What is found identifies the value and is next to it. -/
theorem identifying?_eq_some {nd : ℕ} {d : ℕ × ℤ} (h : x.identifying? nd = some d) :
    d.2 = x.lastExp nd ∧ x.leading nd ≤ d.1 ∧ x.Identifies (d.1 * 10 ^ d.2) := by
  simp only [identifying?] at h
  split_ifs at h with hdown hup hup
  · cases h
    exact ⟨rfl, Nat.le_succ _, hup.1⟩
  · cases h
    exact ⟨rfl, le_rfl, hdown⟩
  · cases h
    exact ⟨rfl, Nat.le_succ _, hup⟩

theorem not_identifies_of_eq_none {nd : ℕ} (h : x.identifying? nd = none) :
    ¬x.Identifies (x.leading nd * 10 ^ x.lastExp nd) := by
  intro hdown
  simp only [identifying?, if_pos hdown] at h
  split_ifs at h

theorem shortest_of_identifies {nd : ℕ} (hpos : 1 ≤ nd) (hle : nd ≤ 17)
    (h : x.Identifies (x.leading nd * 10 ^ x.lastExp nd)) :
    ∃ nd', nd' ≤ nd ∧ x.identifying? nd' = some x.shortest := by
  have hmem : nd ∈ List.range' 1 17 := mem_range'_1.mpr ⟨hpos, by omega⟩
  have hsome : x.identifying? nd ≠ none := fun hnone => not_identifies_of_eq_none hnone h
  cases hfind : (List.range' 1 17).findSome? x.identifying? with
  | none => exact absurd (findSome?_eq_none_iff.mp hfind nd hmem) hsome
  | some d =>
    obtain ⟨before, nd', after, hrange, hnd', hnone⟩ := findSome?_eq_some_iff.mp hfind
    refine ⟨nd', ?_, by rw [shortest, hfind]; exact hnd'⟩
    -- the digit counts are tried in order, and those before do not do
    have hsorted : (List.range' 1 17).Pairwise (· < ·) := pairwise_lt_range'
    rw [hrange] at hmem hsorted
    obtain hbefore | hafter := mem_append.mp hmem
    · exact absurd (hnone nd hbefore) hsome
    · obtain rfl | hafter := mem_cons.mp hafter
      · exact le_rfl
      · exact (rel_of_pairwise_cons (pairwise_append.mp hsorted).2.1 hafter).le

/-- What is found is a decimal next to the value, or the value. -/
theorem shortest_cases (x : Binary64) :
    (∃ nd, 1 ≤ nd ∧ x.identifying? nd = some x.shortest) ∨ x.shortest = x.exact := by
  rw [shortest]
  cases hfind : (List.range' 1 17).findSome? x.identifying? with
  | none => exact .inr rfl
  | some d =>
    obtain ⟨nd, hmem, hnd⟩ := exists_of_findSome?_eq_some hfind
    exact .inl ⟨nd, (mem_range'_1.mp hmem).1, hnd⟩

/-! ### Whole numbers -/

section Whole

variable {n : ℕ}

theorem lastExp_eq (hn : x.magnitude = n) (nd : ℕ) : x.lastExp nd = Nat.log 10 n + 1 - nd := by
  rw [lastExp, hn, Int.log_natCast]

/-- A whole number is found as one, with zeros to be added. -/
theorem exists_shortest_eq (hn : x.magnitude = n) (hlt : n < 10 ^ 6) :
    ∃ j : ℕ, x.shortest.2 = j ∧ x.shortest.1 * 10 ^ j = n := by
  have hlog : Nat.log 10 n ≤ 5 := by
    rw [← Nat.lt_succ_iff]
    exact Nat.log_lt_of_lt_pow' (by norm_num) hlt
  have hexp := lastExp_eq hn
  have hexact :
      x.Identifies (x.leading (Nat.log 10 n + 1) * 10 ^ x.lastExp (Nat.log 10 n + 1)) := by
    have hzero : x.lastExp (Nat.log 10 n + 1) = 0 := by
      rw [hexp]
      push_cast
      ring
    have hself := x.identifies_magnitude
    rw [leading, hzero, zpow_zero, div_one, mul_one, hn, Nat.floor_natCast]
    rwa [hn] at hself
  obtain ⟨nd, hle, hnd⟩ := shortest_of_identifies (by omega) (by omega) hexact
  obtain ⟨hlast, -, hident⟩ := identifying?_eq_some hnd
  obtain ⟨j, hj⟩ : ∃ j : ℕ, x.shortest.2 = j := by
    refine Int.eq_ofNat_of_zero_le ?_
    rw [hlast, hexp]
    omega
  refine ⟨j, hj, eq_of_identifies hn (hlt.trans (by norm_num)) ?_⟩
  rw [hj, zpow_natCast] at hident
  exact_mod_cast hident

theorem exact_eq_magnitude (x : Binary64) : (x.exact.1 : ℚ) * 10 ^ x.exact.2 = x.magnitude := by
  rw [exact, magnitude]
  split_ifs with hexp
  · obtain ⟨k, hk⟩ := Int.eq_ofNat_of_zero_le hexp
    simp only [hk]
    push_cast
    simp
  · obtain ⟨k, hk⟩ := Int.eq_ofNat_of_zero_le (show 0 ≤ -x.exp by omega)
    have hk' : x.exp = -(k : ℤ) := by omega
    simp only [hk']
    push_cast
    rw [neg_neg, Int.toNat_natCast, zpow_neg, zpow_neg, zpow_natCast, zpow_natCast,
      show (10 : ℚ) = 5 * 2 by norm_num, mul_pow]
    field_simp

/-- The digits that are found stand for no less than a power of ten that the value reaches. -/
theorem le_shortest {E : ℤ} (h : (10 : ℚ) ^ E ≤ x.magnitude) :
    (10 : ℚ) ^ E ≤ x.shortest.1 * 10 ^ x.shortest.2 := by
  have hpos : 0 < x.magnitude := lt_of_lt_of_le (zpow_pos (by norm_num) E) h
  obtain ⟨nd, hnd, hfound⟩ | hexact := x.shortest_cases
  · obtain ⟨hlast, hleading, -⟩ := identifying?_eq_some hfound
    -- the first digits alone stand for the power of ten of the value
    have hlog : (10 : ℚ) ^ Int.log 10 x.magnitude ≤ x.magnitude :=
      Int.zpow_log_le_self (by norm_num) hpos
    have hE : E ≤ Int.log 10 x.magnitude := (Int.zpow_le_iff_le_log (by norm_num) hpos).mp h
    have hsplit : (10 : ℚ) ^ Int.log 10 x.magnitude = 10 ^ (nd - 1) * 10 ^ x.lastExp nd := by
      rw [← zpow_natCast, ← zpow_add₀ (by norm_num), lastExp]
      congr 1
      omega
    have hfloor : 10 ^ (nd - 1) ≤ x.leading nd := by
      rw [leading, Nat.le_floor_iff (div_nonneg hpos.le (zpow_nonneg (by norm_num) _)),
        le_div_iff₀ (zpow_pos (by norm_num) _)]
      push_cast
      rwa [← hsplit]
    calc (10 : ℚ) ^ E ≤ 10 ^ Int.log 10 x.magnitude := zpow_le_zpow_right₀ (by norm_num) hE
      _ = 10 ^ (nd - 1) * 10 ^ x.lastExp nd := hsplit
      _ ≤ x.shortest.1 * 10 ^ x.shortest.2 := by
        rw [hlast]
        exact mul_le_mul_of_nonneg_right (by exact_mod_cast hfloor.trans hleading)
          (zpow_nonneg (by norm_num) _)
  · rw [hexact, exact_eq_magnitude]
    exact h

/-! ### Numerals -/

theorem trimZeros_append (ds : List Char) :
    trimZeros ds ++ List.replicate (ds.length - (trimZeros ds).length) '0' = ds := by
  have hsplit : trimZeros ds ++ ds.rtakeWhile (· = '0') = ds := rdropWhile_append_rtakeWhile
  have hzeros : ds.rtakeWhile (· = '0') = List.replicate (ds.rtakeWhile (· = '0')).length '0' := by
    refine eq_replicate_of_mem fun c hc => ?_
    have hzero := mem_rtakeWhile_imp hc
    exact of_decide_eq_true hzero
  have hlength := congrArg List.length hsplit
  rw [length_append] at hlength
  have hcount : ds.length - (trimZeros ds).length = (ds.rtakeWhile (· = '0')).length := by omega
  rw [hcount, ← hzeros]
  exact hsplit

theorem toDigits_mul_pow {N : ℕ} (hN : 0 < N) (j : ℕ) :
    Nat.toDigits 10 (N * 10 ^ j) = Nat.toDigits 10 N ++ List.replicate j '0' := by
  induction j with
  | zero => simp
  | succ j ih =>
    have hpos : 0 < N * 10 ^ j := Nat.mul_pos hN (Nat.pow_pos (by norm_num))
    have hmul : N * 10 ^ (j + 1) = N * 10 ^ j * 10 := by rw [pow_succ, mul_assoc]
    rw [Nat.toDigits_of_base_le (by norm_num) (by omega), hmul, Nat.mul_div_cancel _ (by norm_num),
      Nat.mul_mod_left, ih, replicate_succ', append_assoc]
    rfl

theorem formatF_of_length_le {ds : List Char} {point : ℕ} (hpos : 0 < point)
    (hle : ds.length ≤ point) :
    formatF ds point = ds ++ List.replicate (point - ds.length) '0' := by
  rw [formatF]
  simp only [Nat.cast_pos, hpos, if_true, Int.toNat_natCast, Nat.cast_lt, not_lt.mpr hle, if_false,
    append_nil, take_of_length_le hle]

theorem text_of_lt (hn : x.magnitude = n) (hlt : n < 10 ^ 6) : x.text = Nat.toDigits 10 n := by
  rw [text]
  split_ifs with hmant
  · have hzero : (n : ℚ) = 0 := by rw [← hn, magnitude, hmant, Nat.cast_zero, zero_mul]
    rw [Nat.cast_eq_zero.mp hzero]
    rfl
  · obtain ⟨j, hj, hshort⟩ := exists_shortest_eq hn hlt
    have hpos : 0 < n := by
      have hpos : 0 < x.magnitude :=
        mul_pos (Nat.cast_pos.mpr (Nat.pos_of_ne_zero hmant)) x.zpow_exp_pos
      exact_mod_cast hn ▸ hpos
    have hdigits := toDigits_mul_pow (Nat.pos_of_mul_pos_right (hshort ▸ hpos)) j
    rw [hshort] at hdigits
    set ds := Nat.toDigits 10 x.shortest.1
    have hlength : (Nat.toDigits 10 n).length = ds.length + j := by
      rw [hdigits, length_append, length_replicate]
    have hpos : 0 < (Nat.toDigits 10 n).length := Nat.length_toDigits_pos
    have hle : (Nat.toDigits 10 n).length ≤ 6 :=
      (Nat.length_toDigits_le_iff (by norm_num) (by norm_num)).mpr hlt
    have htrim : (trimZeros ds).length ≤ ds.length := ( rdropWhile_prefix _ ds).length_le
    have hpoint : (ds.length + x.shortest.2 : ℤ) = (ds.length + j : ℕ) := by
      rw [hj]
      push_cast
      rfl
    simp only [hpoint, formatDigits]
    rw [if_neg (by omega), formatF_of_length_le (by omega) (by omega), hdigits]
    conv_rhs => rw [← trimZeros_append ds]
    rw [append_assoc, replicate_append_replicate]
    congr 2
    omega

theorem mem_text_of_le (h : 10 ^ 6 ≤ x.magnitude) : 'e' ∈ x.text := by
  have hmant : x.mant ≠ 0 := by
    intro hzero
    rw [magnitude, hzero] at h
    norm_num at h
  have hshort := le_shortest (x := x) (E := 6) (by exact_mod_cast h)
  rw [text, if_neg hmant]
  set ds := Nat.toDigits 10 x.shortest.1
  have hlt : x.shortest.1 < 10 ^ ds.length :=
    (Nat.length_toDigits_le_iff (by norm_num) Nat.length_toDigits_pos).mp le_rfl
  have hpoint : (6 : ℤ) < ds.length + x.shortest.2 := by
    rw [← zpow_lt_zpow_iff_right₀ (show (1 : ℚ) < 10 by norm_num), zpow_add₀ (by norm_num),
      zpow_natCast]
    refine hshort.trans_lt (mul_lt_mul_of_pos_right ?_ (zpow_pos (by norm_num) _))
    exact_mod_cast hlt
  simp only [formatDigits]
  rw [if_pos (by omega), formatE]
  simp

end Whole

theorem toList_toString (n : ℤ) : (toString n).toList =
    if n < 0 then '-' :: Nat.toDigits 10 n.natAbs else Nat.toDigits 10 n.natAbs := by
  cases n with
  | ofNat m =>
    have hrepr : toString (Int.ofNat m) = toString m := rfl
    rw [if_neg (by simp), hrepr, Nat.toString_eq_ofList_toDigits, String.toList_ofList]
    rfl
  | negSucc m =>
    have hrepr : toString (Int.negSucc m) = "-" ++ toString (m + 1) := rfl
    rw [if_pos (Int.negSucc_lt_zero m), hrepr, String.toList_append,
      Nat.toString_eq_ofList_toDigits, String.toList_ofList, String.toList_ofList]
    rfl

theorem not_mem_toString (n : ℤ) : 'e' ∉ (toString n).toList := by
  have hdigits : 'e' ∉ Nat.toDigits 10 n.natAbs := fun hmem =>
    absurd (Nat.isDigit_of_mem_toDigits (by norm_num) le_rfl hmem) (by decide)
  rw [toList_toString]
  split_ifs
  · exact not_mem_cons_of_ne_of_not_mem (by decide) hdigits
  · exact hdigits

/-- **Whole numbers.** The text is the numeral of the value exactly if it is below a million, and is
not the negative zero. -/
theorem formatG_eq_toString_iff {n : ℤ} (hn : x.value = n) :
    x.formatG = toString n ↔ n.natAbs < 10 ^ 6 ∧ ¬(x.neg = true ∧ n = 0) := by
  have hmag : x.magnitude = n.natAbs := by
    rw [Nat.cast_natAbs, Int.cast_abs, ← hn, value]
    split_ifs
    · rw [abs_neg, abs_of_nonneg x.magnitude_nonneg]
    · rw [abs_of_nonneg x.magnitude_nonneg]
  have hneg : x.neg = true → n ≤ 0 := by
    intro hneg
    rw [value, if_pos hneg] at hn
    have hle : (n : ℚ) ≤ 0 := by linarith [x.magnitude_nonneg]
    exact_mod_cast hle
  have hnonneg : x.neg = false → 0 ≤ n := by
    intro hneg
    rw [value, hneg] at hn
    have hle : (0 : ℚ) ≤ n := by
      rw [← hn]
      exact x.magnitude_nonneg
    exact_mod_cast hle
  rw [← String.toList_inj, formatG, String.toList_ofList]
  by_cases hlt : n.natAbs < 10 ^ 6
  · rw [text_of_lt hmag hlt, toList_toString]
    cases hsign : x.neg with
    | true =>
      have hle := hneg hsign
      by_cases hzero : n = 0
      · exact iff_of_false (by simp [hzero]) fun h => h.2 ⟨rfl, hzero⟩
      · rw [if_pos rfl, if_pos (by omega)]
        exact iff_of_true rfl ⟨hlt, fun h => hzero h.2⟩
    | false =>
      have hge := hnonneg hsign
      rw [if_neg nofun, if_neg (by omega)]
      exact iff_of_true rfl ⟨hlt, nofun⟩
  · refine iff_of_false (fun heq => ?_) fun h => hlt h.1
    have hmem : 'e' ∈ x.text := mem_text_of_le (by rw [hmag]; exact_mod_cast not_lt.mp hlt)
    refine not_mem_toString n (heq ▸ ?_)
    split_ifs
    · exact mem_cons_of_mem _ hmem
    · exact hmem

end Binary64
