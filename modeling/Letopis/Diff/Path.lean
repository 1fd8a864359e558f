import Mathlib.Data.List.TakeWhile
import Letopis.Diff.Json

/-!
# Dot-notation paths

Paths are built by `childPath`, `indexPath` and `keyedPath` while two values are compared, and
read back by `parsePath` when a change is applied. The results of this module say that reading
undoes building, one segment at a time, for the object keys dot-notation can carry
(`PlainKey`): a key that is empty, all digits, or contains `.` or `[` is read back as
something else.

`atoiIndex` accumulates in a 64-bit `int` that wraps around, so it gives the index back only
when the index is one (`atoiIndex_toDigits`).
-/

namespace Letopis

open List

/-! ### Building paths -/

/-- The path of the entry `key` of the object at `path`. -/
def childPath (path key : String) : String :=
  if path = "" then key else path ++ "." ++ key

/-- The path of element `i` of the array at `path`. -/
def indexPath (path : String) (i : Nat) : String := childPath path (Nat.repr i)

/-- The path of the element whose `keyField` renders as `keyVal`. -/
def keyedPath (path keyField keyVal : String) : String :=
  path ++ "[" ++ keyField ++ "=" ++ keyVal ++ "]"

/-! ### Reading paths -/

/-- The kinds of a single change. -/
inductive ChangeOp where
  | add
  | change
  | remove
  deriving DecidableEq

/-- The name of a kind of change. -/
def ChangeOp.text : ChangeOp → String
  | .add => "add"
  | .change => "change"
  | .remove => "remove"

theorem ChangeOp.text_injective : Function.Injective ChangeOp.text := by
  rintro (_ | _ | _) (_ | _ | _) h
  all_goals first | rfl | exact absurd h (by decide)

/-- The sentinels `Apply` wraps, matched with `errors.Is`. -/
inductive DiffSentinel where
  | pathNotFound
  | typeMismatch
  | unknownOp
  deriving DecidableEq

/-- The errors of `Apply`, each with what its text quotes. -/
inductive DiffErr where
  | malformedSelector (path : String)
  | pathNotFound (path : String)
  | expectsObject (path : String)
  | expectsArray (path : String)
  /-- `root path supports change only, got "op"` -/
  | rootOp (op : ChangeOp)
  deriving DecidableEq

/-- Which sentinel an error wraps. -/
def DiffErr.sentinel : DiffErr → DiffSentinel
  | .malformedSelector _ | .pathNotFound _ => .pathNotFound
  | .expectsObject _ | .expectsArray _ => .typeMismatch
  | .rootOp _ => .unknownOp

/-- One navigation step of a path. -/
inductive PathSeg where
  | key (name : String)
  | index (i : Int)
  | keyed (keyField keyVal : String)
  deriving DecidableEq

/-- A decimal digit `'0' ≤ r ≤ '9'`. -/
def isDecimal (r : Char) : Bool := '0' ≤ r && r ≤ '9'

theorem isDecimal_eq_isDigit (c : Char) : isDecimal c = c.isDigit := by
  simp only [isDecimal, Char.isDigit, Char.le_def]

/-- One round of the accumulation `n = n*10 + int(r-'0')`, in a wrapping 64-bit `int`. -/
def atoiStep (n : Int) (r : Char) : Int := (n * 10 + (r.toNat - 48)).bmod (2 ^ 64)

/-- The value of an all-digit segment; anything else is not an index. -/
def atoiIndex (s : List Char) : Option Int :=
  if s ≠ [] ∧ s.all isDecimal then some (s.foldl atoiStep 0) else none

/-- A purely numeric segment is an array index, everything else is an object key. -/
def keyOrIndex (seg : List Char) : PathSeg :=
  match atoiIndex seg with
  | some i => .index i
  | none => .key (String.ofList seg)

/-- `strings.Cut` at the first occurrence of a character. -/
def cut (sep : Char) (s : List Char) : List Char × List Char × Bool :=
  match s.dropWhile (· ≠ sep) with
  | [] => (s, [], false)
  | _ :: after => (s.takeWhile (· ≠ sep), after, true)

/-- `strings.TrimSuffix(s, "]")`. -/
def trimBracket (s : List Char) : List Char :=
  if s.getLast? = some ']' then s.dropLast else s

/-- The segments of one dot-free piece: a bracket selector expands into the array's key
segment followed by a keyed segment. -/
def parseRaw (path : String) (raw : List Char) : Except DiffErr (List PathSeg) :=
  match cut '[' raw with
  | (_, _, false) => .ok [keyOrIndex raw]
  | (name, sel, true) =>
    match cut '=' (trimBracket sel) with
    | (_, _, false) => .error (.malformedSelector path)
    | (field, val, true) =>
      let seg := PathSeg.keyed (String.ofList field) (String.ofList val)
      .ok (if name = [] then [seg] else [keyOrIndex name, seg])

/-- Append the segments of the pieces, stopping at the first malformed one. -/
def parseRaws (path : String) : List (List Char) → Except DiffErr (List PathSeg)
  | [] => .ok []
  | raw :: raws =>
    match parseRaw path raw with
    | .error e => .error e
    | .ok segs =>
      match parseRaws path raws with
      | .error e => .error e
      | .ok rest => .ok (segs ++ rest)

/-- Split a dot-notation path into navigation segments. -/
def parsePath (path : String) : Except DiffErr (List PathSeg) :=
  if path = "" then .ok [] else parseRaws path (path.toList.splitOn '.')

/-! ### Reading undoes building -/

/-- An object key that dot-notation can carry. -/
def PlainKey (k : String) : Prop :=
  k ≠ "" ∧ k.toList.all isDecimal = false ∧ '.' ∉ k.toList ∧ '[' ∉ k.toList

instance (k : String) : Decidable (PlainKey k) :=
  inferInstanceAs (Decidable (_ ∧ _ ∧ _ ∧ _))

theorem cut_of_notMem {sep : Char} {s : List Char} (h : sep ∉ s) : cut sep s = (s, [], false) := by
  have hdrop : s.dropWhile (· ≠ sep) = [] := by
    rw [dropWhile_eq_nil_iff]
    intro c hc
    simpa using ne_of_mem_of_not_mem hc h
  simp only [cut, hdrop]

variable {segs : List PathSeg}

private theorem parseRaws_path {p q : String} {raws : List (List Char)}
    (h : parseRaws p raws = .ok segs) : parseRaws q raws = .ok segs := by
  induction raws generalizing segs with
  | nil => exact h
  | cons raw raws ih =>
    have hraw : ∀ s, parseRaw p raw = .ok s → parseRaw q raw = .ok s := by
      intro s hs
      unfold parseRaw at hs ⊢
      split at hs
      · exact hs
      · split at hs
        · cases hs
        · exact hs
    simp only [parseRaws] at h ⊢
    split at h
    · cases h
    · rename_i s hs
      rw [hraw s hs]
      split at h
      · cases h
      · rename_i rest hrest
        simp only [ih hrest]
        exact h

private theorem parseRaws_append {p : String} {raws : List (List Char)} {raw : List Char}
    {more : List PathSeg} (h : parseRaws p raws = .ok segs) (hr : parseRaw p raw = .ok more) :
    parseRaws p (raws ++ [raw]) = .ok (segs ++ more) := by
  induction raws generalizing segs with
  | nil =>
    cases h
    simp [parseRaws, hr]
  | cons r raws ih =>
    simp only [parseRaws, cons_append] at h ⊢
    split at h
    · cases h
    · split at h
      · cases h
      · rename_i rest hrest
        cases h
        simp [ih hrest]

theorem of_mem_splitOn {sep : Char} {l part : List Char} (h : part ∈ l.splitOn sep) :
    sep ∉ part ∧ part ⊆ l := by
  induction l generalizing part with
  | nil =>
    rw [splitOn_nil, mem_singleton] at h
    simp [h]
  | cons c l ih =>
    rw [splitOn_cons_eq_if_modifyHead] at h
    split_ifs at h with hc
    · rcases mem_cons.mp h with rfl | h
      · simp
      · exact (ih h).imp_right (subset_cons_of_subset c)
    · obtain ⟨first, rest, hsplit⟩ := exists_cons_of_ne_nil (l.splitOn_ne_nil sep)
      rw [hsplit, modifyHead_cons] at h
      rw [hsplit] at ih
      rcases mem_cons.mp h with rfl | h
      · obtain ⟨hsep, hsub⟩ := ih mem_cons_self
        have hne : sep ≠ c := fun heq => hc (by simp [heq])
        exact ⟨not_mem_cons_of_ne_of_not_mem hne hsep, cons_subset_cons c hsub⟩
      · exact (ih (mem_cons_of_mem first h)).imp_right (subset_cons_of_subset c)

/-- Appending a dot-free piece appends the segments it reads as. An empty piece is a piece
only after another one. -/
theorem parsePath_childPath {path key : String} {more : List PathSeg}
    (hp : parsePath path = .ok segs) (hk : key = "" → path ≠ "") (hdot : '.' ∉ key.toList)
    (hseg : ∀ q, parseRaw q key.toList = .ok more) :
    parsePath (childPath path key) = .ok (segs ++ more) := by
  have hsplit : key.toList.splitOn '.' = [key.toList] := splitOn_eq_singleton hdot
  unfold childPath
  split_ifs with hroot
  · subst hroot
    cases hp
    have hne : key ≠ "" := fun h => hk h rfl
    simp [parsePath, hne, hsplit, parseRaws, hseg]
  · have hne : path ++ "." ++ key ≠ "" := by simp [hroot]
    have hlist : (path ++ "." ++ key).toList = path.toList ++ '.' :: key.toList := by
      simp [String.toList_append]
    rw [parsePath, if_neg hroot] at hp
    rw [parsePath, if_neg hne, hlist, splitOn_append_cons_self, hsplit]
    exact parseRaws_append (parseRaws_path hp) (hseg _)

theorem keyOrIndex_key {key : String} (h : key.toList ≠ [] → key.toList.all isDecimal = false) :
    keyOrIndex key.toList = .key key := by
  have hidx : atoiIndex key.toList = none :=
    if_neg fun ⟨hne, hall⟩ => Bool.noConfusion (hall.symm.trans (h hne))
  simp [keyOrIndex, hidx]

/-- **Object keys.** The path of an entry reads back as the object's path and the key. -/
theorem parsePath_childPath_key {path key : String} (hp : parsePath path = .ok segs)
    (hk : PlainKey key) : parsePath (childPath path key) = .ok (segs ++ [.key key]) := by
  obtain ⟨hne, hdig, hdot, hbr⟩ := hk
  refine parsePath_childPath hp (fun h => absurd h hne) hdot fun q => ?_
  simp [parseRaw, cut_of_notMem hbr, keyOrIndex_key fun _ => hdig]

private theorem bmod_mul_add_bmod (x y z : Int) (m : Nat) :
    (x.bmod m * y + z).bmod m = (x * y + z).bmod m := by
  rw [← Int.bmod_add_bmod, Int.bmod_mul_bmod, Int.bmod_add_bmod]

/-- What is accumulated is the value of the digits, up to multiples of `2 ^ 64`. -/
theorem foldl_atoiStep_bmod {s : List Char} (n : Nat) (hdig : ∀ c ∈ s, c.isDigit) :
    s.foldl atoiStep ((n : Int).bmod (2 ^ 64)) =
      ((Nat.ofDigitChars 10 s n : Nat) : Int).bmod (2 ^ 64) := by
  induction s generalizing n with
  | nil => rw [foldl_nil, Nat.ofDigitChars_nil]
  | cons c s ih =>
    have hc : 48 ≤ c.toNat := by
      have := hdig c mem_cons_self
      simp only [Char.isDigit, Bool.and_eq_true, decide_eq_true_eq] at this
      exact this.1
    have hcast : (n : Int) * 10 + (c.toNat - 48) =
        ((10 * n + (c.toNat - '0'.toNat) : Nat) : Int) := by
      have h48 : '0'.toNat = 48 := rfl
      omega
    have hwrap : atoiStep ((n : Int).bmod (2 ^ 64)) c =
        ((10 * n + (c.toNat - '0'.toNat) : Nat) : Int).bmod (2 ^ 64) := by
      rw [atoiStep, ← hcast]
      exact bmod_mul_add_bmod ..
    rw [foldl_cons, Nat.ofDigitChars_cons, hwrap]
    exact ih _ fun d hd => hdig d (mem_cons_of_mem c hd)

theorem foldl_atoiStep {s : List Char} (n : Nat)
    (hdig : ∀ c ∈ s, c.isDigit) (hlt : Nat.ofDigitChars 10 s n < 2 ^ 63) :
    s.foldl atoiStep n = (Nat.ofDigitChars 10 s n : Nat) := by
  have hle : n ≤ Nat.ofDigitChars 10 s n := by
    rw [Nat.ofDigitChars_eq_ofDigitChars_zero]
    exact Nat.le_add_right_of_le (Nat.le_mul_of_pos_left _ (Nat.pow_pos (by decide)))
  have hfold := foldl_atoiStep_bmod n hdig
  rwa [Int.bmod_eq_of_le (by omega) (by omega), Int.bmod_eq_of_le (by omega) (by omega)] at hfold

private theorem atoiIndex_toDigits {i : Nat} (hi : i < 2 ^ 63) :
    atoiIndex (Nat.toDigits 10 i) = some (i : Int) := by
  have hdig : ∀ c ∈ Nat.toDigits 10 i, c.isDigit := fun c hc =>
    Nat.isDigit_of_mem_toDigits (by decide) (by decide) hc
  have hall : (Nat.toDigits 10 i).all isDecimal := by
    rw [all_eq_true]
    intro c hc
    have := hdig c hc
    simp only [Char.isDigit, Bool.and_eq_true, decide_eq_true_eq] at this
    simpa [isDecimal, Char.le_def] using this
  have hval : Nat.ofDigitChars 10 (Nat.toDigits 10 i) 0 = i := Nat.ofDigitChars_ten_toDigits
  have hfold := foldl_atoiStep 0 hdig (by rwa [hval])
  rw [hval] at hfold
  rw [atoiIndex, if_pos ⟨Nat.toDigits_ne_nil, hall⟩]
  exact congrArg some hfold

theorem notMem_repr {i : Nat} {c : Char} (hc : c.isDigit = false) : c ∉ (Nat.repr i).toList := by
  intro hmem
  rw [Nat.toList_repr] at hmem
  have := Nat.isDigit_of_mem_toDigits (by decide) (by decide) hmem
  simp [hc] at this

theorem all_isDecimal_repr (i : Nat) : (Nat.repr i).toList.all isDecimal = true := by
  rw [Nat.toList_repr, all_eq_true]
  intro c hc
  rw [isDecimal_eq_isDigit]
  exact Nat.isDigit_of_mem_toDigits (by decide) (by decide) hc

theorem repr_injective : Function.Injective Nat.repr := by
  intro i j h
  have hvalue := congrArg (fun s : String => Nat.ofDigitChars 10 s.toList 0) h
  simpa [Nat.toList_repr] using hvalue

theorem keyOrIndex_repr {i : Nat} (hi : i < 2 ^ 63) :
    keyOrIndex (Nat.repr i).toList = .index i := by
  simp only [keyOrIndex, Nat.toList_repr, atoiIndex_toDigits hi]

/-- **Array indices.** The path of an element reads back as the array's path and the
index. -/
theorem parsePath_indexPath {path : String} {i : Nat} (hp : parsePath path = .ok segs)
    (hi : i < 2 ^ 63) : parsePath (indexPath path i) = .ok (segs ++ [.index i]) := by
  have hbr : '[' ∉ (Nat.repr i).toList := notMem_repr rfl
  refine parsePath_childPath hp (fun h => absurd h Nat.repr_ne_empty) (notMem_repr rfl) fun q => ?_
  simp only [parseRaw, cut_of_notMem hbr, keyOrIndex_repr hi]

end Letopis
