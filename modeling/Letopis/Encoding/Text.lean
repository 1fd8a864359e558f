import Mathlib.Data.List.DropRight
import Mathlib.Data.String.Basic

/-!
# Texts that can be read back

The texts programs build records and digests from: the bytes of a string, hexadecimal bytes,
zero-padded decimals and decimal fractions. For each the lemma that the text determines what
was written, and one lemma (`append_inj_of_stop`) by which a sequence of such texts, kept apart
by separators, determines its parts.
-/

namespace Text

open List

/-! ### Bytes -/

/-- The bytes of a string, in UTF-8. -/
def bytes (s : String) : List UInt8 := s.toByteArray.data.toList

theorem bytes_injective : Function.Injective bytes := by
  intro s t h
  refine String.toByteArray_inj.mp (ByteArray.ext (Array.ext' ?_))
  exact h

theorem bytes_append (s t : String) : bytes (s ++ t) = bytes s ++ bytes t := by
  simp [bytes, String.toByteArray_append]

theorem length_bytes_ofList {cs : List Char} (h : ∀ c ∈ cs, c.toNat ≤ 127) :
    (bytes (String.ofList cs)).length = cs.length := by
  have henc : bytes (String.ofList cs) = cs.flatMap String.utf8EncodeChar := by
    simp [bytes, List.utf8Encode]
  rw [henc, length_flatMap]
  have hone : cs.map (fun c => (String.utf8EncodeChar c).length) = cs.map fun _ => 1 :=
    map_congr_left fun c hc => by simp [String.utf8EncodeChar, h c hc]
  rw [hone]
  simp

/-! ### Hexadecimal -/

/-- Two lower-case hexadecimal digits for each byte. -/
def hex (bs : List UInt8) : List Char :=
  bs.flatMap fun b => [(b.toNat / 16).digitChar, (b.toNat % 16).digitChar]

private theorem hex_cons (b : UInt8) (bs : List UInt8) :
    hex (b :: bs) = (b.toNat / 16).digitChar :: (b.toNat % 16).digitChar :: hex bs := rfl

theorem length_hex (bs : List UInt8) : (hex bs).length = 2 * bs.length := by
  induction bs with
  | nil => rfl
  | cons b bs ih =>
    rw [hex_cons]
    simp only [length_cons, ih]
    omega

private theorem digitChar_inj {m n : Nat} (hm : m < 16) (hn : n < 16)
    (h : m.digitChar = n.digitChar) : m = n := by
  have key : ∀ m n : Fin 16, m.val.digitChar = n.val.digitChar → m = n := by decide
  exact congrArg Fin.val (key ⟨m, hm⟩ ⟨n, hn⟩ h)

theorem hex_injective : Function.Injective hex := by
  intro bs
  induction bs with
  | nil =>
    rintro (_ | ⟨b, bs⟩) h
    · rfl
    · cases h
  | cons a as ih =>
    rintro (_ | ⟨b, bs⟩) h
    · cases h
    · rw [hex_cons, hex_cons, List.cons.injEq, List.cons.injEq] at h
      obtain ⟨hhigh, hlow, htail⟩ := h
      have ha := a.toNat_lt
      have hb := b.toNat_lt
      have hdiv := digitChar_inj (by omega) (by omega) hhigh
      have hmod := digitChar_inj (by omega) (by omega) hlow
      have hab : a = b := UInt8.toNat_inj.mp (by omega)
      rw [hab, ih htail]

theorem ascii_of_mem_hex {bs : List UInt8} {c : Char} (h : c ∈ hex bs) : c.toNat ≤ 127 := by
  have key : ∀ n : Fin 16, n.val.digitChar.toNat ≤ 127 := by decide
  obtain ⟨b, -, hc⟩ := mem_flatMap.mp h
  have hb := b.toNat_lt
  rcases mem_pair.mp hc with rfl | rfl
  · exact key ⟨b.toNat / 16, by omega⟩
  · exact key ⟨b.toNat % 16, by omega⟩

/-! ### Decimals -/

/-- A number in decimal, with zeros in front up to a width. -/
def padded (width n : Nat) : List Char :=
  List.replicate (width - (Nat.toDigits 10 n).length) '0' ++ Nat.toDigits 10 n

private theorem ofDigitChars_padded (width n : Nat) :
    Nat.ofDigitChars 10 (padded width n) 0 = n := by
  have hzeros : ∀ k cs, Nat.ofDigitChars 10 (List.replicate k '0' ++ cs) 0 =
      Nat.ofDigitChars 10 cs 0 := by
    intro k cs
    induction k with
    | zero => rfl
    | succ k ih => rw [replicate_succ, cons_append, Nat.ofDigitChars_cons]; exact ih
  rw [padded, hzeros, Nat.ofDigitChars_ten_toDigits]

theorem padded_injective (width : Nat) : Function.Injective (padded width) := by
  intro m n h
  rw [← ofDigitChars_padded width m, h, ofDigitChars_padded]

theorem isDigit_of_mem_padded {width n : Nat} {c : Char} (h : c ∈ padded width n) :
    c.isDigit = true := by
  rcases mem_append.mp h with h | h
  · rw [eq_of_mem_replicate h]
    rfl
  · exact Nat.isDigit_of_mem_toDigits (by decide) (by decide) h

theorem length_padded {width n : Nat} (h : n < 10 ^ width) (hw : 0 < width) :
    (padded width n).length = width := by
  have := (Nat.length_toDigits_le_iff (by decide : 1 < 10) hw).mpr h
  simp [padded, this]

/-! ### Splitting -/

private theorem append_inj_of_stop {α : Type} {p : α → Bool} {xs ys r r' : List α}
    (hxs : ∀ c ∈ xs, p c = true) (hys : ∀ c ∈ ys, p c = true) (hr : ∀ c ∈ r.head?, p c = false)
    (hr' : ∀ c ∈ r'.head?, p c = false) (h : xs ++ r = ys ++ r') : xs = ys ∧ r = r' := by
  have key : ∀ {zs s : List α}, (∀ c ∈ zs, p c = true) → (∀ c ∈ s.head?, p c = false) →
      (zs ++ s).takeWhile p = zs := by
    intro zs s hzs hs
    rw [takeWhile_append_of_pos hzs]
    cases s with
    | nil => simp
    | cons c s => simp [hs c (by simp)]
  have heq : xs = ys := by rw [← key hxs hr, h, key hys hr']
  exact ⟨heq, append_cancel_left (heq ▸ h)⟩

theorem append_cons_inj {α : Type} [DecidableEq α] {sep : α} {xs ys r r' : List α} (hxs : sep ∉ xs)
    (hys : sep ∉ ys) (h : xs ++ sep :: r = ys ++ sep :: r') : xs = ys ∧ r = r' := by
  have hother : ∀ {l : List α}, sep ∉ l → ∀ c ∈ l, (c != sep) = true := by
    intro l hl c hc
    exact bne_iff_ne.mpr fun heq => hl (heq ▸ hc)
  obtain ⟨heq, hrest⟩ := append_inj_of_stop (p := (· != sep)) (hother hxs) (hother hys)
    (by simp) (by simp) h
  exact ⟨heq, (List.cons.inj hrest).2⟩

theorem append_cons_inj_last {α : Type} [DecidableEq α] {sep : α} {xs ys r r' : List α}
    (hr : sep ∉ r) (hr' : sep ∉ r') (h : xs ++ sep :: r = ys ++ sep :: r') :
    xs = ys ∧ r = r' := by
  have hrev : r.reverse ++ sep :: xs.reverse = r'.reverse ++ sep :: ys.reverse := by
    simpa using congrArg List.reverse h
  obtain ⟨hrest, heq⟩ := append_cons_inj (mt mem_reverse.mp hr) (mt mem_reverse.mp hr')
    hrev
  exact ⟨reverse_injective heq, reverse_injective hrest⟩

theorem padded_append_inj {width m n : Nat} {r r' : List Char}
    (hr : ∀ c ∈ r.head?, c.isDigit = false) (hr' : ∀ c ∈ r'.head?, c.isDigit = false)
    (h : padded width m ++ r = padded width n ++ r') : m = n ∧ r = r' := by
  obtain ⟨hdigits, hrest⟩ := append_inj_of_stop (fun _ => isDigit_of_mem_padded)
    (fun _ => isDigit_of_mem_padded) hr hr' h
  exact ⟨padded_injective width hdigits, hrest⟩

/-! ### Fractions -/

/-- Drop the trailing zeros. -/
def trimZeros (cs : List Char) : List Char := cs.rdropWhile (· == '0')

theorem trimZeros_inj {cs ds : List Char} (hlen : cs.length = ds.length)
    (h : trimZeros cs = trimZeros ds) : cs = ds := by
  have hsplit : ∀ l : List Char,
      l = trimZeros l ++ List.replicate (l.length - (trimZeros l).length) '0' := by
    intro l
    have happ : trimZeros l ++ l.rtakeWhile (· == '0') = l := rdropWhile_append_rtakeWhile
    have hall : l.rtakeWhile (· == '0') = List.replicate (l.rtakeWhile (· == '0')).length '0' :=
      eq_replicate_of_mem fun c hc => by simpa using mem_rtakeWhile_imp hc
    have hcount : (l.rtakeWhile (· == '0')).length = l.length - (trimZeros l).length := by
      have := congrArg List.length happ
      rw [length_append] at this
      omega
    rw [← hcount, ← hall, happ]
  rw [hsplit cs, hsplit ds, h, hlen]

end Text
