import Letopis.Domain.Event
import Letopis.Encoding.Text

/-!
# Instants as texts

`t.UTC().Truncate(time.Millisecond).Format(time.RFC3339Nano)`: the calendar date of an instant
in the proleptic Gregorian calendar, its clock reading and its fraction of a second without
trailing zeros. The text determines the instant (`Time.format_injective`).

Years are counted from March, so that the leap day is the last day of a year.
-/

namespace Letopis

open List

namespace Time

/-- `Truncate`: round down to a multiple of `d` nanoseconds since the zero time. -/
def truncate (t : Time) (d : Int) : Time := ⟨t.ns - t.ns % d⟩

/-- `time.Millisecond`. -/
def millisecond : Int := 1000000

/-- Year, month and day of the day that is `days` after January 1, year 1. -/
def date (days : Int) : Int × Int × Int :=
  let n := days + 306
  -- cut off cycles of 400, 100 and 4 years and then years; the last century of a cycle and the
  -- last year of four have a day more
  let cycle := n / 146097
  let century := min (n % 146097 / 36524) 3
  let ofCentury := n % 146097 - 36524 * century
  let four := ofCentury / 1461
  let year := min (ofCentury % 1461 / 365) 3
  let ofYear := ofCentury % 1461 - 365 * year
  let month := (5 * ofYear + 2) / 153
  let day := ofYear - (153 * month + 2) / 5 + 1
  let fromMarch := 400 * cycle + 100 * century + 4 * four + year
  if month < 10 then (fromMarch, month + 3, day) else (fromMarch + 1, month - 9, day)

/-- The day of a date. -/
def dayOf (d : Int × Int × Int) : Int :=
  let fromMarch := if d.2.1 ≤ 2 then d.1 - 1 else d.1
  let month := if d.2.1 ≤ 2 then d.2.1 + 9 else d.2.1 - 3
  146097 * (fromMarch / 400) + 36524 * (fromMarch % 400 / 100) + 1461 * (fromMarch % 100 / 4) +
    365 * (fromMarch % 4) + (153 * month + 2) / 5 + d.2.2 - 307

private theorem yearDigits {y century four year : Int} (cycle : Int)
    (hy : y = 400 * cycle + 100 * century + 4 * four + year) (hcentury : 0 ≤ century ∧ century ≤ 3)
    (hfour : 0 ≤ four ∧ four ≤ 24) (hyear : 0 ≤ year ∧ year ≤ 3) :
    y / 400 = cycle ∧ y % 400 / 100 = century ∧ y % 100 / 4 = four ∧ y % 4 = year := by
  have h400 : y % 400 = 100 * century + (4 * four + year) := by omega
  have h100 : y % 100 = 4 * four + year := by omega
  refine ⟨by omega, ?_, ?_, by omega⟩
  · rw [h400]
    omega
  · rw [h100]
    omega

private theorem dayOf_date (days : Int) : dayOf (date days) = days := by
  simp only [date]
  generalize hcycle : (days + 306) / 146097 = cycle
  generalize hrest : (days + 306) % 146097 = rest
  have hrest' : 0 ≤ rest ∧ rest < 146097 := by omega
  generalize hcentury : min (rest / 36524) 3 = century
  have hcentury' : 0 ≤ century ∧ century ≤ 3 := by omega
  generalize hofCentury : rest - 36524 * century = ofCentury
  have hofCentury' : 0 ≤ ofCentury ∧ ofCentury ≤ 36524 := by omega
  generalize hfour : ofCentury / 1461 = four
  generalize hleft : ofCentury % 1461 = left
  have hfour' : 0 ≤ four ∧ four ≤ 24 ∧ 0 ≤ left ∧ left < 1461 := by omega
  generalize hyear : min (left / 365) 3 = year
  have hyear' : 0 ≤ year ∧ year ≤ 3 := by omega
  generalize hofYear : left - 365 * year = ofYear
  have hofYear' : 0 ≤ ofYear ∧ ofYear ≤ 365 := by omega
  generalize hmonth : (5 * ofYear + 2) / 153 = month
  have hmonth' : 0 ≤ month ∧ month ≤ 11 := by omega
  generalize hbefore : (153 * month + 2) / 5 = before
  obtain ⟨h₁, h₂, h₃, h₄⟩ := yearDigits cycle rfl hcentury' ⟨hfour'.1, hfour'.2.1⟩ hyear'
  have hdays : 146097 * cycle + 36524 * century + 1461 * four + 365 * year + ofYear - 306 =
      days := by omega
  by_cases hlt : month < 10
  · have hm : ¬ month + 3 ≤ 2 := by omega
    simp only [dayOf, if_pos hlt, if_neg hm, h₁, h₂, h₃, h₄, Int.add_sub_cancel, hbefore]
    omega
  · have hm : month - 9 ≤ 2 := by omega
    simp only [dayOf, if_neg hlt, if_pos hm, h₁, h₂, h₃, h₄, Int.add_sub_cancel,
      Int.sub_add_cancel, hbefore]
    omega

private theorem date_injective : Function.Injective date :=
  Function.LeftInverse.injective dayOf_date

private theorem date_pos (days : Int) : 1 ≤ (date days).2.1 ∧ 1 ≤ (date days).2.2 := by
  simp only [date]
  generalize hleft : ((days + 306) % 146097 -
    36524 * min ((days + 306) % 146097 / 36524) 3) % 1461 = left
  have hleft' : 0 ≤ left := by omega
  generalize hofYear : left - 365 * min (left / 365) 3 = ofYear
  have hofYear' : 0 ≤ ofYear := by omega
  split_ifs <;> dsimp only <;> omega

example : [0, 719162, 730178, 730179, -1].map date =
    [(1, 1, 1), (1970, 1, 1), (2000, 2, 29), (2000, 3, 1), (0, 12, 31)] := by decide

/-! ### Texts -/

/-- A year, with at least four digits. -/
def yearText (y : Int) : List Char :=
  if y < 0 then '-' :: Text.padded 4 y.natAbs else Text.padded 4 y.natAbs

/-- A fraction of a second in nanoseconds, without trailing zeros. -/
def fractionText (nanos : Nat) : List Char :=
  if nanos = 0 then [] else '.' :: Text.trimZeros (Text.padded 9 nanos)

/-- The clock reading of an instant of the day, in nanoseconds since midnight, in UTC. -/
def clockText (ns : Nat) : List Char :=
  Text.padded 2 (ns / 3600000000000) ++ ':' :: (Text.padded 2 (ns / 60000000000 % 60) ++
    ':' :: (Text.padded 2 (ns / 1000000000 % 60) ++ (fractionText (ns % 1000000000) ++ ['Z'])))

/-- The nanoseconds of a day. -/
def day : Int := 86400000000000

/-- `t.UTC().Format(time.RFC3339Nano)`. -/
def format (t : Time) : String :=
  let d := date (t.ns / day)
  String.ofList (yearText d.1 ++ '-' :: (Text.padded 2 d.2.1.toNat ++
    '-' :: (Text.padded 2 d.2.2.toNat ++ 'T' :: clockText (t.ns % day).toNat)))

private theorem yearText_append_inj {y y' : Int} {r r' : List Char}
    (hr : ∀ c ∈ r.head?, c.isDigit = false) (hr' : ∀ c ∈ r'.head?, c.isDigit = false)
    (h : yearText y ++ r = yearText y' ++ r') : y = y' ∧ r = r' := by
  -- a sign is no digit, so both years have one or neither has
  have hsign : ∀ n s s', '-' :: s ≠ Text.padded 4 n ++ s' := by
    intro n s s' heq
    have hne : Text.padded 4 n ≠ [] := by simp [Text.padded, Nat.toDigits_ne_nil]
    obtain ⟨c, cs, hc⟩ := exists_cons_of_ne_nil hne
    have hdig : c.isDigit = true := Text.isDigit_of_mem_padded (hc ▸ mem_cons_self)
    rw [hc, cons_append, List.cons.injEq] at heq
    rw [← heq.1] at hdig
    cases hdig
  unfold yearText at h
  split_ifs at h with hy hy' hy'
  · rw [cons_append, cons_append, List.cons.injEq] at h
    obtain ⟨habs, hrest⟩ := Text.padded_append_inj hr hr' h.2
    exact ⟨by omega, hrest⟩
  · exact absurd h (hsign _ _ _)
  · exact absurd h.symm (hsign _ _ _)
  · obtain ⟨habs, hrest⟩ := Text.padded_append_inj hr hr' h
    exact ⟨by omega, hrest⟩

private theorem fractionText_inj {m n : Nat} (hm : m < 1000000000) (hn : n < 1000000000)
    (h : fractionText m = fractionText n) : m = n := by
  unfold fractionText at h
  split_ifs at h with hm' hn' hn'
  · rw [hm', hn']
  · rw [List.cons.injEq] at h
    have hlen : (Text.padded 9 m).length = (Text.padded 9 n).length := by
      rw [Text.length_padded hm (by decide), Text.length_padded hn (by decide)]
    exact Text.padded_injective 9 (Text.trimZeros_inj hlen h.2)

private theorem head?_fractionText (nanos : Nat) :
    ∀ c ∈ (fractionText nanos ++ ['Z']).head?, c.isDigit = false := by
  unfold fractionText
  split_ifs <;> simp

private theorem clockText_injective : Function.Injective clockText := by
  intro m n h
  have hcolon : ∀ r : List Char, ∀ c ∈ (':' :: r).head?, c.isDigit = false := by
    rintro r c ⟨⟩
    rfl
  unfold clockText at h
  obtain ⟨hhours, h⟩ := Text.padded_append_inj (hcolon _) (hcolon _) h
  obtain ⟨hminutes, h⟩ := Text.padded_append_inj (hcolon _) (hcolon _) (List.cons.inj h).2
  obtain ⟨hseconds, h⟩ := Text.padded_append_inj (head?_fractionText _) (head?_fractionText _)
    (List.cons.inj h).2
  have hnanos := fractionText_inj (Nat.mod_lt _ (by decide)) (Nat.mod_lt _ (by decide))
    (append_cancel_right h)
  omega

/-- **The text determines the instant.** -/
theorem format_injective : Function.Injective format := by
  intro t t' h
  have hdash : ∀ r : List Char, ∀ c ∈ ('-' :: r).head?, c.isDigit = false := by
    rintro r c ⟨⟩
    rfl
  have hT : ∀ r : List Char, ∀ c ∈ ('T' :: r).head?, c.isDigit = false := by
    rintro r c ⟨⟩
    rfl
  have h := String.ofList_injective h
  obtain ⟨hyear, h⟩ := yearText_append_inj (hdash _) (hdash _) h
  obtain ⟨hmonth, h⟩ := Text.padded_append_inj (hdash _) (hdash _) (List.cons.inj h).2
  obtain ⟨hday, h⟩ := Text.padded_append_inj (hT _) (hT _) (List.cons.inj h).2
  have hclock := clockText_injective (List.cons.inj h).2
  have hpos := date_pos (t.ns / day)
  have hpos' := date_pos (t'.ns / day)
  have hdate : t.ns / day = t'.ns / day :=
    date_injective (Prod.ext hyear (Prod.ext (by omega) (by omega)))
  have hns : t.ns = t'.ns := by
    unfold day at hdate hclock
    omega
  cases t
  cases t'
  exact congrArg Time.mk hns

example : (Time.mk 63838000000120000000).format = "2023-12-12T17:46:40.12Z" := by decide

end Time

end Letopis
