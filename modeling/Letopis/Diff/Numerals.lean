import Letopis.Diff.Exact
import Letopis.Diff.Rfc6902

/-!
# Long numerals

A segment of digits in a path is an index. It is read into a 64-bit `int` that wraps around, so a
numeral is read as its value up to multiples of `2 ^ 64`. Numerals below `2 ^ 63` are read as what
they say. Of the others, some come out negative, which is refused like any index that is not there,
and some as the index of another element, which is then edited (`index_exact_iff`).
-/

namespace Letopis

open List

/-! ### Reading a numeral -/

/-- The value of a decimal numeral. -/
def numeral (seg : List Char) : Nat := Nat.ofDigitChars 10 seg 0

section

variable {seg : List Char}

private theorem atoiIndex_eq (hne : seg ≠ []) (hdigits : ∀ c ∈ seg, isDecimal c = true) :
    atoiIndex seg = some ((numeral seg : Int).bmod (2 ^ 64)) := by
  have hdig : ∀ c ∈ seg, c.isDigit := fun c hc => isDecimal_eq_isDigit c ▸ hdigits c hc
  have hfold := foldl_atoiStep_bmod 0 hdig
  rw [atoiIndex, if_pos ⟨hne, all_eq_true.mpr hdigits⟩]
  exact congrArg some hfold

private theorem keyOrIndex_eq (hne : seg ≠ []) (hdigits : ∀ c ∈ seg, isDecimal c = true) :
    keyOrIndex seg = .index ((numeral seg : Int).bmod (2 ^ 64)) := by
  rw [keyOrIndex, atoiIndex_eq hne hdigits]

end

private theorem bmod_eq_self_iff (n : Nat) : (n : Int).bmod (2 ^ 64) = n ↔ n < 2 ^ 63 := by
  rw [Int.bmod_def]
  split_ifs <;> omega

private theorem bmod_natCast (n : Nat) : (n : Int).bmod (2 ^ 64) =
    if n % 2 ^ 64 < 2 ^ 63 then ((n % 2 ^ 64 : Nat) : Int) else (n % 2 ^ 64 : Nat) - 2 ^ 64 := by
  rw [Int.bmod_def]
  split_ifs <;> omega

/-! ### Where a path fails -/

private theorem applyStep_index_out {ch : Change} {xs : List Json} {i : Int} {rest : List PathSeg}
    (h : i < 0 ∨ (xs.length : Int) < i) :
    applyStep ch (.arr xs) (.index i :: rest) = .error (.pathNotFound ch.path) := by
  have hle : i < 0 ∨ (xs.length : Int) ≤ i := h.imp_right le_of_lt
  rw [applyStep_arr]
  cases rest with
  | nil =>
    rw [applyElems]
    cases ch.op with
    | add => exact congrArg (Except.map _) (if_pos h)
    | change | remove => exact congrArg (Except.map _) (if_pos hle)
  | cons s rest => exact congrArg (Except.map _) (if_pos hle)

private theorem applyStep_error_of_descend {ch : Change} {v w : Json} {t s : PathSeg}
    {rest : List PathSeg} {e : DiffErr} (h : v.descend t = some w)
    (he : applyStep ch w (s :: rest) = .error e) :
    applyStep ch v (t :: s :: rest) = .error e := by
  cases v with
  | null | bool | num | str => cases h
  | obj m =>
    cases t with
    | index | keyed => cases h
    | key name =>
      have hentry : m.lookup name = some w := h
      rw [applyStep_obj, hentry, applyEntry, he]
      · rfl
      · exact cons_ne_nil s rest
  | arr xs =>
    cases t with
    | key name => cases h
    | index i =>
      rw [Json.descend] at h
      split_ifs at h with hi
      have hlt := (List.getElem?_eq_some_iff.mp h).1
      have hget : xs.getD i.toNat .null = w := by rw [getD_eq_getElem?_getD, h]; rfl
      rw [applyStep_arr, applyElems, if_neg (by omega), hget, he]
      · rfl
      · exact cons_ne_nil s rest
    | keyed keyField keyVal =>
      obtain ⟨idx, hidx, hw⟩ := Option.bind_eq_some_iff.mp h
      have hget : xs.getD idx .null = w := by rw [getD_eq_getElem?_getD, hw]; rfl
      simp only [applyStep, isEmpty_cons, Bool.false_eq_true, if_false, hidx, hget, he]

private theorem applyStep_error_of_resolve {ch : Change} {v w : Json} {pre rest : List PathSeg}
    {s : PathSeg} {e : DiffErr} (h : v.resolve pre = some w)
    (he : applyStep ch w (s :: rest) = .error e) :
    applyStep ch v (pre ++ s :: rest) = .error e := by
  induction pre generalizing v with
  | nil =>
    cases h
    exact he
  | cons t pre ih =>
    rw [Json.resolve_cons] at h
    obtain ⟨u, hu, hres⟩ := Option.bind_eq_some_iff.mp h
    have hbelow := ih hres
    cases pre with
    | nil => exact applyStep_error_of_descend hu hbelow
    | cons t' pre => exact applyStep_error_of_descend hu hbelow

/-! ### Numerals beyond an array -/

section

variable {seg : List Char}

private theorem parsePath_numeral (hne : seg ≠ []) (hdigits : ∀ c ∈ seg, isDecimal c = true) :
    parsePath (String.ofList seg) = .ok [keyOrIndex seg] := by
  have hnot : ∀ c : Char, isDecimal c = false → c ∉ seg := by
    intro c hc hmem
    rw [hdigits c hmem] at hc
    cases hc
  have hnonempty : String.ofList seg ≠ "" := by simpa using hne
  rw [parsePath_pieces (by rw [String.toList_ofList]; exact hnot '[' (by decide)), pieces,
    if_neg hnonempty, String.toList_ofList, splitOn_eq_singleton (hnot '.' (by decide))]
  rfl

end

/-- **Numerals as indices.** A segment of digits, of any length, is read as its value exactly if
that is below `2 ^ 63`. A change with a numeral beyond the end of an array fails because there is
no such path, whatever the change and the array are, exactly if the numeral is below `2 ^ 63` or is
read as a negative number. -/
theorem index_exact_iff {seg : List Char} (hne : seg ≠ [])
    (hdigits : ∀ c ∈ seg, isDecimal c = true) :
    (atoiIndex seg = some (numeral seg : Int) ↔ numeral seg < 2 ^ 63) ∧
    ((∀ (v : Json) (ch : Change) (chs : List Change) (pre post : List PathSeg) (xs : List Json),
        v.WF → parsePath ch.path = .ok (pre ++ keyOrIndex seg :: post) →
        v.resolve pre = some (.arr xs) → xs.length < numeral seg →
        apply v (ch :: chs) = .error (.pathNotFound ch.path)) ↔
      numeral seg < 2 ^ 63 ∨ 2 ^ 63 ≤ numeral seg % 2 ^ 64) := by
  refine ⟨?_, fun h => ?_, fun h v ch chs pre post xs _ hpath hres hlen => ?_⟩
  · rw [atoiIndex_eq hne hdigits, Option.some.injEq, bmod_eq_self_iff]
  · -- an array that ends where the numeral is read to be: one more element can be added there
    by_contra hbad
    obtain ⟨hlarge, hsmall⟩ := not_or.mp hbad
    set i := numeral seg % 2 ^ 64 with hi
    let xs : List Json := List.replicate i .null
    let ch : Change := ⟨String.ofList seg, .add, .null, .null⟩
    have hxs : xs.length = i := length_replicate
    have hindex : keyOrIndex seg = .index i := by
      rw [keyOrIndex_eq hne hdigits, bmod_natCast, if_pos (by omega)]
    have hwf : (Json.arr xs).WF := by
      refine Json.wf_arr_iff.mpr ⟨by omega, fun x hx => ?_⟩
      rw [eq_of_mem_replicate hx]
      decide
    have hfail := h (.arr xs) ch [] [] [] xs hwf (parsePath_numeral hne hdigits) rfl (by omega)
    have hok : applyStep ch (.arr xs) [.index i] = .ok (.arr (xs.insertIdx i .null)) := by
      rw [applyStep_arr, applyElems, if_neg (by omega)]
      rfl
    rw [apply, applyOneChange, parsePath_numeral hne hdigits, hindex] at hfail
    simp [applyAt, hok, apply] at hfail
  · have hout : applyStep ch (.arr xs) (keyOrIndex seg :: post) =
        .error (.pathNotFound ch.path) := by
      rw [keyOrIndex_eq hne hdigits]
      refine applyStep_index_out ?_
      rw [bmod_natCast]
      split_ifs <;> omega
    have hstep := applyStep_error_of_resolve hres hout
    have hat : applyAt ch v (pre ++ keyOrIndex seg :: post) = .error (.pathNotFound ch.path) := by
      cases pre with
      | nil => exact hstep
      | cons s pre => exact hstep
    rw [apply, applyOneChange, hpath]
    simp only [hat]

/-- The index three of an array with two elements. -/
theorem index_exact_iff_three :
    let v := Json.obj [("lines", .arr [.str "a", .str "b"])]
    atoiIndex ['3'] = some 3 ∧ apply v [⟨"lines.3", .change, .null, .str "c"⟩] =
      .error (.pathNotFound "lines.3") := by
  intro v
  have hdigits : ∀ c ∈ ['3'], isDecimal c = true := forall_mem_singleton.mpr rfl
  obtain ⟨hread, hfails⟩ := index_exact_iff (cons_ne_nil _ _) hdigits
  have hsmall : numeral ['3'] < 2 ^ 63 := by decide
  exact ⟨hread.mpr hsmall, hfails.mpr (.inl hsmall) v ⟨"lines.3", .change, .null, .str "c"⟩ []
    [.key "lines"] [] [.str "a", .str "b"] (by decide) (by decide) rfl (by decide)⟩

/-- A numeral that is `2 ^ 64` edits the first element. -/
theorem long_numeral_edits_first :
    let v := Json.obj [("lines", .arr [.str "a", .str "b"])]
    atoiIndex "18446744073709551616".toList = some 0 ∧
      apply v [⟨"lines.18446744073709551616", .change, .null, .str "c"⟩] =
        .ok (.obj [("lines", .arr [.str "c", .str "b"])]) := by
  decide +kernel

end Letopis
