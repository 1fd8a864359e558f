import Letopis.ForMathlib.Radix
import Mathlib.Data.UInt
import Mathlib.Data.String.Basic

/-!
# Ids

The ids that the server gives out are ULIDs: 48 bits of the time in milliseconds and 80 random bits,
written with 26 characters. The encoder keeps the 128 bits in two words and shifts five of them out
of the lower word at a time, refilling it from the upper one. What it writes are the digits of the
number in base 32 (`encodeLoop_eq`), so ids sort like the bytes they encode (`encodeULID_lt_iff`).
-/

namespace Letopis

/-! ### The encoder -/

/-- The alphabet of ULIDs. -/
def crockford : String := "0123456789ABCDEFGHJKMNPQRSTVWXYZ"

/-- A character of the alphabet. -/
def crockfordAt (d : Nat) : Char := crockford.toList.getD d '0'

/-- `binary.BigEndian.Uint64`. -/
def bigEndian (bs : List UInt8) : UInt64 := bs.foldl (fun v b => v <<< 8 ||| b.toUInt64) 0

/-- Write characters from the last one on, each for the five lowest bits. -/
def encodeLoop : Nat → UInt64 → UInt64 → List Char → List Char
  | 0, _, _, out => out
  | n + 1, hi, lo, out =>
    encodeLoop n (hi >>> 5) (lo >>> 5 ||| (hi &&& 0x1f) <<< 59)
      (crockfordAt (lo &&& 0x1f).toNat :: out)

/-- Render 16 bytes as 26 characters. -/
def encodeULID (b : Vector UInt8 16) : String :=
  let hi := bigEndian (b.toList.take 8)
  let lo := bigEndian (b.toList.drop 8)
  String.ofList (encodeLoop 26 hi lo [])

/-- A new id for a time in milliseconds, with ten random bytes. -/
def newULID (ms : UInt64) (entropy : Vector UInt8 10) : String :=
  encodeULID (#v[(ms >>> 40).toUInt8, (ms >>> 32).toUInt8, (ms >>> 24).toUInt8,
    (ms >>> 16).toUInt8, (ms >>> 8).toUInt8, ms.toUInt8] ++ entropy)

/-- A new id of an id space. -/
def newID (space : String) (ms : UInt64) (entropy : Vector UInt8 10) : String :=
  space ++ newULID ms entropy

/-- `NewActivityID`. -/
def newActivityID : UInt64 → Vector UInt8 10 → String := newID "act_"

/-- `NewFlowID`. -/
def newFlowID : UInt64 → Vector UInt8 10 → String := newID "f_"

/-- `NewTicketID`. -/
def newTicketID : UInt64 → Vector UInt8 10 → String := newID "tkt_"

/-- `NewAuditID`. -/
def newAuditID : UInt64 → Vector UInt8 10 → String := newID "aud_"

/-- `NewRuleID`. -/
def newRuleID : UInt64 → Vector UInt8 10 → String := newID "rule_"

/-- `NewDeadLetterID`. -/
def newDeadLetterID : UInt64 → Vector UInt8 10 → String := newID "dlq_"

/-- `NewDeliveryID`. -/
def newDeliveryID : UInt64 → Vector UInt8 10 → String := newID "dlv_"

/-! ### The digits -/

/-- The number that bytes stand for, the most significant byte first. -/
def byteValue (bs : List UInt8) : Nat := Nat.ofDigits 256 (bs.map UInt8.toNat).reverse

private theorem byteValue_concat (bs : List UInt8) (b : UInt8) :
    byteValue (bs ++ [b]) = 256 * byteValue bs + b.toNat := by
  rw [byteValue, List.map_append, List.map_singleton, List.reverse_concat, Nat.ofDigits_cons,
    add_comm]
  rfl

private theorem byteValue_append (bs cs : List UInt8) :
    byteValue (bs ++ cs) = 256 ^ cs.length * byteValue bs + byteValue cs := by
  rw [byteValue, List.map_append, List.reverse_append, Nat.ofDigits_append, List.length_reverse,
    List.length_map, add_comm]
  rfl

variable {bs : List UInt8}

private theorem lt_of_mem_map_toNat : ∀ d ∈ bs.map UInt8.toNat, d < 256 := by
  intro d hd
  obtain ⟨b, -, rfl⟩ := List.mem_map.mp hd
  exact b.toNat_lt

private theorem byteValue_lt (bs : List UInt8) : byteValue bs < 256 ^ bs.length := by
  have h := Radix.ofDigits_reverse_lt (by decide : 1 < 256) (@lt_of_mem_map_toNat bs)
  rwa [List.length_map] at h

private theorem byteValue_lt_iff {cs : List UInt8} (h : bs.length = cs.length) :
    byteValue bs < byteValue cs ↔ bs < cs := by
  rw [byteValue, byteValue, Radix.ofDigits_reverse_lt_iff (by decide) (by simp [h])
    lt_of_mem_map_toNat lt_of_mem_map_toNat]
  exact Radix.map_lt_map_iff (s := Set.univ) (fun a _ b _ => UInt8.toNat_inj.mp)
    (fun a _ b _ => UInt8.lt_iff_toNat_lt.symm) (fun _ _ => trivial) fun _ _ => trivial

private theorem byteValue_inj {cs : List UInt8} (hlen : bs.length = cs.length)
    (h : byteValue bs = byteValue cs) : bs = cs := by
  have hdigit (bs : List UInt8) : ∀ d ∈ (bs.map UInt8.toNat).reverse, d < 256 :=
    fun d hd => lt_of_mem_map_toNat d (List.mem_reverse.mp hd)
  have hmap := Nat.ofDigits_inj_of_len_eq (by decide) (by simp [hlen]) (hdigit bs) (hdigit cs) h
  exact List.map_injective_iff.mpr (fun _ _ => UInt8.toNat_inj.mp) (List.reverse_injective hmap)

private theorem toNat_bigEndian (h : bs.length ≤ 8) : (bigEndian bs).toNat = byteValue bs := by
  induction bs using List.reverseRecOn with
  | nil => rfl
  | append_singleton bs b ih =>
    rw [List.length_append, List.length_singleton] at h
    have hlt : byteValue bs < 256 ^ 7 :=
      (byteValue_lt bs).trans_le (Nat.pow_le_pow_right (by decide) (by omega))
    have hb := b.toNat_lt
    have hshift : 2 ^ 8 * byteValue bs % 2 ^ 64 = 2 ^ 8 * byteValue bs :=
      Nat.mod_eq_of_lt (by omega)
    rw [byteValue_concat, bigEndian, List.foldl_append, List.foldl_cons, List.foldl_nil,
      ← bigEndian, UInt64.toNat_or, UInt64.toNat_shiftLeft, ih (by omega), UInt8.toNat_toUInt64]
    change byteValue bs <<< 8 % 2 ^ 64 ||| b.toNat = _
    rw [Nat.shiftLeft_eq, mul_comm, hshift, ← Nat.two_pow_add_eq_or_of_lt hb]

/-- The number that two words hold. -/
def wordsValue (hi lo : UInt64) : Nat := 2 ^ 64 * hi.toNat + lo.toNat

private theorem toNat_lowBits (hi lo : UInt64) : (lo &&& 0x1f).toNat = wordsValue hi lo % 32 := by
  rw [UInt64.toNat_and, wordsValue]
  change lo.toNat &&& 2 ^ 5 - 1 = _
  rw [Nat.and_two_pow_sub_one_eq_mod]
  omega

/-- **One round of the loop.** What is left in the two words are the digits before. -/
theorem wordsValue_shift (hi lo : UInt64) :
    wordsValue (hi >>> 5) (lo >>> 5 ||| (hi &&& 0x1f) <<< 59) = wordsValue hi lo / 32 := by
  have hlo := lo.toNat_lt
  have hcarry : ((hi &&& 0x1f) <<< 59).toNat = 2 ^ 59 * (hi.toNat % 32) := by
    rw [UInt64.toNat_shiftLeft, UInt64.toNat_and]
    change (hi.toNat &&& 2 ^ 5 - 1) <<< 59 % 2 ^ 64 = _
    rw [Nat.and_two_pow_sub_one_eq_mod, Nat.shiftLeft_eq, mul_comm]
    omega
  have hfive (w : UInt64) : (w >>> 5).toNat = w.toNat / 32 := by
    rw [UInt64.toNat_shiftRight]
    exact Nat.shiftRight_eq_div_pow w.toNat 5
  -- the carry is above what is left of the lower word
  rw [wordsValue, UInt64.toNat_or, hcarry, hfive, hfive, Nat.or_comm,
    ← Nat.two_pow_add_eq_or_of_lt (by omega), wordsValue]
  omega

private theorem encodeLoop_eq (n : Nat) (hi lo : UInt64) (out : List Char) :
    encodeLoop n hi lo out = (Radix.digits 32 n (wordsValue hi lo)).map crockfordAt ++ out := by
  induction n generalizing hi lo out with
  | zero => rfl
  | succ n ih =>
    rw [encodeLoop, ih, wordsValue_shift, toNat_lowBits hi, Radix.digits, List.map_append,
      List.append_assoc]
    rfl

private theorem toList_encodeULID (b : Vector UInt8 16) :
    (encodeULID b).toList = (Radix.digits 32 26 (byteValue b.toList)).map crockfordAt := by
  have hvalue : wordsValue (bigEndian (b.toList.take 8)) (bigEndian (b.toList.drop 8)) =
      byteValue b.toList := by
    rw [wordsValue, toNat_bigEndian (by simp), toNat_bigEndian (by simp)]
    conv_rhs => rw [← List.take_append_drop 8 b.toList, byteValue_append]
    simp
  rw [encodeULID, String.toList_ofList, encodeLoop_eq, hvalue, List.append_nil]

/-! ### The order of ids -/

private theorem crockfordAt_mem {d : Nat} (hd : d < 32) : crockfordAt d ∈ crockford.toList := by
  have hall : ∀ i : Fin 32, crockfordAt i ∈ crockford.toList := by decide +kernel
  exact hall ⟨d, hd⟩

private theorem crockfordAt_strictMonoOn : StrictMonoOn crockfordAt (Set.Iio 32) := by
  have hall : ∀ i j : Fin 32, i < j → crockfordAt i < crockfordAt j := by decide +kernel
  exact fun i hi j hj hij => hall ⟨i, hi⟩ ⟨j, hj⟩ hij

private theorem encodeULID_lt_iff (x y : Vector UInt8 16) :
    encodeULID x < encodeULID y ↔ x.toList < y.toList := by
  have hdigits (v : Nat) : ∀ d ∈ Radix.digits 32 26 v, d < 32 :=
    fun d => Radix.lt_of_mem_digits (by decide)
  have hbound (z : Vector UInt8 16) : byteValue z.toList < 32 ^ 26 := by
    refine (byteValue_lt z.toList).trans_le ?_
    rw [Vector.length_toList]
    decide
  change (encodeULID x).toList < (encodeULID y).toList ↔ _
  rw [toList_encodeULID, toList_encodeULID,
    Radix.map_lt_map_iff crockfordAt_strictMonoOn.injOn
      (fun _ ha _ hb => crockfordAt_strictMonoOn.lt_iff_lt ha hb) (hdigits _) (hdigits _),
    ← Radix.ofDigits_reverse_lt_iff (by decide) (by simp) (hdigits _) (hdigits _),
    Radix.ofDigits_reverse_digits (hbound x), Radix.ofDigits_reverse_digits (hbound y),
    byteValue_lt_iff (by simp)]

private theorem encodeULID_injective : Function.Injective encodeULID := by
  intro x y h
  have hlen : x.toList.length = y.toList.length := by simp
  have hx : ¬ byteValue x.toList < byteValue y.toList := by
    rw [byteValue_lt_iff hlen, ← encodeULID_lt_iff, h]
    exact lt_irrefl _
  have hy : ¬ byteValue y.toList < byteValue x.toList := by
    rw [byteValue_lt_iff hlen.symm, ← encodeULID_lt_iff, h]
    exact lt_irrefl _
  exact Vector.toList_inj.mp (byteValue_inj hlen (le_antisymm (not_lt.mp hy) (not_lt.mp hx)))

private theorem byteValue_millis (ms : UInt64) :
    byteValue [(ms >>> 40).toUInt8, (ms >>> 32).toUInt8, (ms >>> 24).toUInt8, (ms >>> 16).toUInt8,
      (ms >>> 8).toUInt8, ms.toUInt8] = ms.toNat % 2 ^ 48 := by
  simp only [byteValue, List.map_cons, List.map_nil, UInt64.toNat_toUInt8, UInt64.toNat_shiftRight,
    List.reverse_cons, List.reverse_nil, List.nil_append, List.cons_append, Nat.ofDigits_cons,
    Nat.ofDigits_nil, Nat.shiftRight_eq_div_pow]
  change ms.toNat % 2 ^ 8 + 256 * (ms.toNat / 2 ^ 8 % 2 ^ 8 + 256 * (ms.toNat / 2 ^ 16 % 2 ^ 8 +
    256 * (ms.toNat / 2 ^ 24 % 2 ^ 8 + 256 * (ms.toNat / 2 ^ 32 % 2 ^ 8 +
    256 * (ms.toNat / 2 ^ 40 % 2 ^ 8 + 256 * 0))))) = _
  omega

private theorem newULID_lt {ms ms' : UInt64} (h : ms.toNat % 2 ^ 48 < ms'.toNat % 2 ^ 48)
    (entropy entropy' : Vector UInt8 10) : newULID ms entropy < newULID ms' entropy' := by
  rw [newULID, newULID, encodeULID_lt_iff, Vector.toList_append, Vector.toList_append]
  refine Radix.append_lt_append_of_lt (by simp) ?_ _ _
  rw [← byteValue_millis, ← byteValue_millis] at h
  exact (byteValue_lt_iff (by simp)).mp h

/-- **Ids sort like what they encode.** The encoding of 16 bytes has 26 characters of the alphabet,
other bytes have another encoding, and the encodings sort like the bytes. So within an id space the
ids sort by the millisecond they were made in, as far as that has 48 bits. -/
theorem ids_sort (x y : Vector UInt8 16) :
    ((encodeULID x).length = 26 ∧ ∀ c ∈ (encodeULID x).toList, c ∈ crockford.toList) ∧
      (encodeULID x = encodeULID y → x = y) ∧
      (encodeULID x < encodeULID y ↔ x.toList < y.toList) ∧
      ∀ (space : String) (ms ms' : UInt64) (entropy entropy' : Vector UInt8 10),
        ms.toNat % 2 ^ 48 < ms'.toNat % 2 ^ 48 →
          newID space ms entropy < newID space ms' entropy' := by
  refine ⟨⟨?_, ?_⟩, fun h => encodeULID_injective h, encodeULID_lt_iff x y, ?_⟩
  · rw [← String.length_toList, toList_encodeULID, List.length_map, Radix.length_digits]
  · intro c hc
    rw [toList_encodeULID] at hc
    obtain ⟨d, hd, rfl⟩ := List.mem_map.mp hc
    exact crockfordAt_mem (Radix.lt_of_mem_digits (by decide) hd)
  · intro space ms ms' entropy entropy' h
    change (space ++ newULID ms entropy).toList < (space ++ newULID ms' entropy').toList
    rw [String.toList_append, String.toList_append, Radix.append_lt_append_iff]
    exact newULID_lt h entropy entropy'

end Letopis
