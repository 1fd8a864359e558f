import Mathlib.Data.String.Basic
import Mathlib.Tactic.Ring
import Letopis.ForMathlib.SortedAssoc

/-!
# JSON values

The neutral JSON representation that `encoding/json` produces (`map[string]any`, `[]any`,
`string`, `float64`, `bool`, `nil`), as an inductive type. An object is the list of its
entries; the Go map it stands for has each key once and no order of its own, so the entries
of a value are kept sorted by key (`Json.WF`), which makes equality of values
(`reflect.DeepEqual` in the source) plain equality. A slice has an `int` length, so an array
of a value is shorter than `2 ^ 63`.

A number is a finite `float64`. It is named by its shortest decimal digits, which determine
it: `Number` is `mant * 10 ^ exp` with no trailing zero in the mantissa. Negative zero is the
number zero, as it is for `DeepEqual`.
-/

namespace Letopis

/-- A finite `float64`, named by its shortest decimal digits: the value `mant * 10 ^ exp`,
where a nonzero mantissa does not end in `0`. -/
structure Number where
  mant : Int
  exp : Int
  normal : (mant = 0 → exp = 0) ∧ (mant % 10 = 0 → mant = 0)
  deriving DecidableEq

/-- A JSON value. -/
inductive Json where
  | null
  | bool (b : Bool)
  | num (n : Number)
  | str (s : String)
  | arr (xs : List Json)
  | obj (kvs : List (String × Json))

/-- The entries of an object. -/
abbrev Fields : Type := List (String × Json)

namespace Json

/-! ### Induction and decidable equality -/

/-- Induction over values, with the hypothesis on every element and every entry. -/
@[elab_as_elim]
theorem induction {P : Json → Prop} (null : P .null) (bool : ∀ b, P (.bool b))
    (num : ∀ n, P (.num n)) (str : ∀ s, P (.str s))
    (arr : ∀ xs, (∀ x ∈ xs, P x) → P (.arr xs))
    (obj : ∀ kvs : Fields, (∀ p ∈ kvs, P p.2) → P (.obj kvs)) (j : Json) : P j :=
  @Json.rec P (fun xs => ∀ x ∈ xs, P x) (fun kvs => ∀ p ∈ kvs, P p.2) (fun p => P p.2)
    null bool num str arr obj (by simp) (fun x xs hx hxs => by simpa using ⟨hx, hxs⟩)
    (by simp) (fun p kvs hp hkvs => by simpa [hp] using hkvs) (fun _ _ h => h) j

mutual

/-- Equality of values is decidable: `jsonEqual` of the source. -/
def decEq : (a b : Json) → Decidable (a = b)
  | .null, b => match b with
    | .null => isTrue rfl
    | .bool _ | .num _ | .str _ | .arr _ | .obj _ => isFalse (by simp)
  | .bool x, b => match b with
    | .bool y => decidable_of_iff (x = y) (by simp)
    | .null | .num _ | .str _ | .arr _ | .obj _ => isFalse (by simp)
  | .num x, b => match b with
    | .num y => decidable_of_iff (x = y) (by simp)
    | .null | .bool _ | .str _ | .arr _ | .obj _ => isFalse (by simp)
  | .str x, b => match b with
    | .str y => decidable_of_iff (x = y) (by simp)
    | .null | .bool _ | .num _ | .arr _ | .obj _ => isFalse (by simp)
  | .arr xs, b => match b with
    | .arr ys => have := decEqList xs ys; decidable_of_iff (xs = ys) (by simp)
    | .null | .bool _ | .num _ | .str _ | .obj _ => isFalse (by simp)
  | .obj xs, b => match b with
    | .obj ys => have := decEqFields xs ys; decidable_of_iff (xs = ys) (by simp)
    | .null | .bool _ | .num _ | .str _ | .arr _ => isFalse (by simp)
termination_by structural a => a

/-- Equality of arrays. -/
def decEqList : (xs ys : List Json) → Decidable (xs = ys)
  | [], [] => isTrue rfl
  | [], _ :: _ => isFalse (by simp)
  | _ :: _, [] => isFalse (by simp)
  | x :: xs, y :: ys =>
    have := decEq x y
    have := decEqList xs ys
    decidable_of_iff (x = y ∧ xs = ys) (by simp)
termination_by structural xs => xs

/-- Equality of objects. -/
def decEqFields : (xs ys : Fields) → Decidable (xs = ys)
  | [], [] => isTrue rfl
  | [], _ :: _ => isFalse (by simp)
  | _ :: _, [] => isFalse (by simp)
  | (k, v) :: xs, (l, w) :: ys =>
    have := decEq v w
    have := decEqFields xs ys
    decidable_of_iff (k = l ∧ v = w ∧ xs = ys) (by simp [and_assoc])
termination_by structural xs => xs

end

instance : DecidableEq Json := decEq

/-! ### Predicates on every node -/

section Every

variable (arrOk : List Json → Bool) (objOk : Fields → Bool)

mutual

/-- Every array of the value passes `arrOk` and every object passes `objOk`. -/
def every : Json → Bool
  | .arr xs => arrOk xs && everyList xs
  | .obj kvs => objOk kvs && everyFields kvs
  | _ => true

/-- `every` for each element of an array. -/
def everyList : List Json → Bool
  | [] => true
  | x :: xs => x.every && everyList xs

/-- `every` for each entry of an object. -/
def everyFields : Fields → Bool
  | [] => true
  | (_, v) :: kvs => v.every && everyFields kvs

end

variable {arrOk objOk}

private theorem everyList_iff {xs : List Json} :
    everyList arrOk objOk xs = true ↔ ∀ x ∈ xs, x.every arrOk objOk = true := by
  induction xs with
  | nil => simp [everyList]
  | cons x xs ih => simp [everyList, ih]

private theorem everyFields_iff {kvs : Fields} :
    everyFields arrOk objOk kvs = true ↔ ∀ p ∈ kvs, p.2.every arrOk objOk = true := by
  induction kvs with
  | nil => simp [everyFields]
  | cons p kvs ih => simp [everyFields, ih]

theorem every_arr_iff {xs : List Json} : (Json.arr xs).every arrOk objOk = true ↔
    arrOk xs = true ∧ ∀ x ∈ xs, x.every arrOk objOk = true := by
  rw [every, Bool.and_eq_true, everyList_iff]

theorem every_obj_iff {kvs : Fields} : (Json.obj kvs).every arrOk objOk = true ↔
    objOk kvs = true ∧ ∀ p ∈ kvs, p.2.every arrOk objOk = true := by
  rw [every, Bool.and_eq_true, everyFields_iff]

end Every

/-- What every Go value of this shape satisfies: a slice has an `int` length, a map has each
of its keys once (here: in increasing order). -/
def WF (j : Json) : Prop :=
  j.every (fun xs => xs.length < 2 ^ 63) (fun kvs => SortedAssoc.Sorted kvs) = true

instance (j : Json) : Decidable j.WF := inferInstanceAs (Decidable (_ = true))

theorem wf_arr_iff {xs : List Json} :
    (Json.arr xs).WF ↔ xs.length < 2 ^ 63 ∧ ∀ x ∈ xs, x.WF := by
  rw [WF, every_arr_iff, decide_eq_true_iff]
  rfl

theorem wf_obj_iff {kvs : Fields} :
    (Json.obj kvs).WF ↔ SortedAssoc.Sorted kvs ∧ ∀ p ∈ kvs, p.2.WF := by
  rw [WF, every_obj_iff, decide_eq_true_iff]
  rfl

/-! ### Rendering of scalars -/

end Json

namespace Number

/-- Move the trailing zeros of a mantissa into the exponent, at most `fuel` of them. -/
def shorten : Nat → Int × Int → Int × Int
  | 0, x => x
  | fuel + 1, x => if x.1 % 10 = 0 then shorten fuel (x.1 / 10, x.2 + 1) else x

private theorem shorten_spec {fuel : Nat} {x : Int × Int} (hx : x.1 ≠ 0)
    (hfuel : x.1.natAbs < 10 ^ fuel) :
    (shorten fuel x).1 % 10 ≠ 0 ∧ ∃ k : Nat, (shorten fuel x).2 = x.2 + k ∧
      (shorten fuel x).1 * 10 ^ k = x.1 := by
  induction fuel generalizing x with
  | zero => omega
  | succ fuel ih =>
    rw [shorten]
    split_ifs with hmod
    · obtain ⟨hnormal, k, hexp, hval⟩ := ih (x := (x.1 / 10, x.2 + 1)) (by dsimp only; omega) (by
        dsimp only
        rw [pow_succ] at hfuel
        omega)
      refine ⟨hnormal, k + 1, by rw [hexp]; push_cast; ring, ?_⟩
      rw [pow_succ, ← mul_assoc, hval]
      dsimp only
      omega
    · exact ⟨hmod, 0, by simp, by simp⟩

/-- The number of an integer. -/
def ofInt (v : Int) : Number :=
  if h : v = 0 then ⟨0, 0, by simp⟩
  else
    ⟨(shorten v.natAbs (v, 0)).1, (shorten v.natAbs (v, 0)).2, by
      have hspec := (shorten_spec (x := (v, 0)) h (Nat.lt_pow_self (by decide))).1
      exact ⟨fun hzero => absurd (by rw [hzero]; rfl) hspec, fun hmod => absurd hmod hspec⟩⟩

private theorem ofInt_value (v : Int) : (ofInt v).mant * 10 ^ (ofInt v).exp.toNat = v := by
  unfold ofInt
  split_ifs with h
  · simp [h]
  · obtain ⟨-, k, hexp, hval⟩ := shorten_spec (x := (v, 0)) h (Nat.lt_pow_self (by decide))
    simp only [hexp, zero_add, Int.toNat_natCast]
    exact hval

theorem ofInt_injective : Function.Injective ofInt := by
  intro v w h
  rw [← ofInt_value v, h, ofInt_value]

/-- At least two digits of an exponent, as `%e` writes them. -/
def exponentDigits (n : Nat) : List Char :=
  if n < 10 then '0' :: Nat.toDigits 10 n else Nat.toDigits 10 n

/-- The sign, where there is one. -/
def sign (n : Number) : List Char := if n.mant < 0 then ['-'] else []

/-- The shortest digits. -/
def digits (n : Number) : List Char := Nat.toDigits 10 n.mant.natAbs

/-- The position of the decimal point, counted from the first digit. -/
def point (n : Number) : Int := n.digits.length + n.exp

/-- The form of `%e`, for a way to write the exponent. -/
def scientific (exponent : Nat → List Char) (n : Number) : List Char :=
  let frac := if n.digits.length ≤ 1 then [] else '.' :: n.digits.drop 1
  let e := n.point - 1
  n.sign ++ n.digits.take 1 ++ frac ++ ['e', if e < 0 then '-' else '+'] ++ exponent e.natAbs

/-- The form of `%f`. -/
def plain (n : Number) : List Char :=
  let whole := if 0 < n.point then n.digits.take n.point.toNat ++
    List.replicate (n.point.toNat - n.digits.length) '0' else ['0']
  let frac := if n.exp < 0 then '.' :: (List.replicate (-n.point).toNat '0' ++
    n.digits.drop n.point.toNat) else []
  n.sign ++ whole ++ frac

/-- `strconv.FormatFloat(x, 'g', -1, 64)`: the shortest digits, in exponent form when the
decimal exponent is below `-4` or at least `6`. -/
def formatFloat (n : Number) : String :=
  if n.mant = 0 then "0"
  else if n.point - 1 < -4 ∨ 6 ≤ n.point - 1 then .ofList (n.scientific exponentDigits)
  else .ofList n.plain

end Number

/-- The path form of a scalar key value; values that are not scalars have none. -/
def keyValString : Json → Option String
  | .str s => some s
  | .bool b => some (if b then "true" else "false")
  | .num n => some n.formatFloat
  | .null | .arr _ | .obj _ => none

example : ([⟨15, -1, by decide⟩, ⟨1, 6, by decide⟩, ⟨-12, 1, by decide⟩, ⟨125, -5, by decide⟩,
    ⟨1234567, 0, by decide⟩, ⟨3, -7, by decide⟩] : List Number).map Number.formatFloat =
      ["1.5", "1e+06", "-120", "0.00125", "1.234567e+06", "3e-07"] := by decide

end Letopis
