import Letopis.Diff.JsonPatch

/-!
# JSON Patch

What a patch means, after RFC 6902 and RFC 6901, for the three operations that are exported: `add`,
`replace` and `remove`. A pointer is a list of tokens, each behind a slash, with `~0` for a tilde
and `~1` for a slash. In an object a token names a member; in an array it is an index, written
without leading zeros, or `-` for the place behind the last element. `replace` and `remove` need a
target that exists, and every operation needs the value around its target. The first operation that
fails makes the patch fail.
-/

namespace Letopis

open List

namespace Rfc6902

open SortedAssoc

/-! ### Pointers -/

/-- Undo the escapes of a token. -/
def unescape : List Char → Option (List Char)
  | [] => some []
  | '~' :: '0' :: rest => (unescape rest).map ('~' :: ·)
  | '~' :: '1' :: rest => (unescape rest).map ('/' :: ·)
  | '~' :: _ => none
  | c :: rest => (unescape rest).map (c :: ·)

/-- The tokens of a pointer. -/
def tokens (ptr : String) : Option (List (List Char)) :=
  if ptr = "" then some []
  else
    match ptr.toList.splitOn '/' with
    | [] :: toks => toks.mapM unescape
    | _ => none

/-- The index that a token writes: a zero, or digits that do not begin with one. -/
def arrayIndex (tok : List Char) : Option Nat :=
  if tok ≠ [] ∧ tok.all Char.isDigit ∧ (tok.head? = some '0' → tok = ['0']) then
    some (Nat.ofDigitChars 10 tok 0)
  else none

/-! ### Operations -/

/-- What is done at the target. -/
inductive Action where
  | add (value : Json)
  | replace (value : Json)
  | remove

namespace Action

/-- At the whole document. -/
def onDocument : Action → Option Json
  | .add value | .replace value => some value
  | .remove => none

/-- At a member of an object, which may be missing before and after. -/
def onMember : Action → Option Json → Option (Option Json)
  | .add value, _ => some (some value)
  | .replace _, none | .remove, none => none
  | .replace value, some _ => some (some value)
  | .remove, some _ => some none

/-- At a place of an array. -/
def onElement (act : Action) (xs : List Json) (tok : List Char) : Option (List Json) :=
  match act with
  | .add value =>
    if tok = ['-'] then some (xs ++ [value])
    else (arrayIndex tok).bind fun n => if n ≤ xs.length then some (xs.insertIdx n value) else none
  | .replace value =>
    (arrayIndex tok).bind fun n => if n < xs.length then some (xs.set n value) else none
  | .remove => (arrayIndex tok).bind fun n => if n < xs.length then some (xs.eraseIdx n) else none

/-- Carry the action out at the target that the tokens name. -/
def edit (act : Action) : Json → List (List Char) → Option Json
  | _, [] => act.onDocument
  | .obj m, tok :: rest =>
    let name := String.ofList tok
    if rest.isEmpty then
      (act.onMember (m.lookup name)).map fun
        | some x => .obj (insert name x m)
        | none => .obj (erase name m)
    else
      (m.lookup name).bind fun child =>
        (edit act child rest).map fun x => .obj (insert name x m)
  | .arr xs, tok :: rest =>
    if rest.isEmpty then (act.onElement xs tok).map .arr
    else
      (arrayIndex tok).bind fun n => xs[n]?.bind fun child =>
        (edit act child rest).map fun x => .arr (xs.set n x)
  | _, _ :: _ => none

end Action

/-- The action of an operation; `add` and `replace` need a value. -/
def action (op : JSONPatchOp) : Option Action :=
  match op.op, op.value with
  | .add, some value => some (.add value)
  | .replace, some value => some (.replace value)
  | .remove, _ => some .remove
  | _, none => none

/-- Carry out one operation. -/
def applyOp (doc : Json) (op : JSONPatchOp) : Option Json :=
  (action op).bind fun act => (tokens op.path).bind (act.edit doc)

/-- Carry out the operations of a patch in order. -/
def applyPatch (doc : Json) (patch : List JSONPatchOp) : Option Json := patch.foldlM applyOp doc

end Rfc6902

/-! ### Pointers of paths -/

open Rfc6902

private theorem unescape_escapePointer (seg : List Char) :
    unescape (escapePointer seg) = some seg := by
  induction seg with
  | nil => rfl
  | cons c seg ih =>
    rw [escapePointer, flatMap_cons, ← escapePointer]
    by_cases htilde : c = '~'
    · subst htilde
      simp [pointerChar, unescape, ih]
    · by_cases hslash : c = '/'
      · subst hslash
        simp [pointerChar, unescape, ih]
      · have hchar : pointerChar c = [c] := by
          unfold pointerChar
          split
          · exact absurd rfl htilde
          · exact absurd rfl hslash
          · rfl
        rw [hchar, singleton_append, unescape, ih]
        · rfl
        all_goals simp [htilde]

private theorem slash_notMem_escapePointer (seg : List Char) : '/' ∉ escapePointer seg := by
  intro hmem
  obtain ⟨c, -, hc⟩ := mem_flatMap.mp hmem
  unfold pointerChar at hc
  split at hc
  · simp at hc
  · simp at hc
  · next _ hslash =>
    rw [mem_singleton] at hc
    exact hslash hc.symm

/-- The dot-separated pieces of a path. -/
def pieces (path : String) : List (List Char) :=
  if path = "" then [] else path.toList.splitOn '.'

private theorem splitOn_flatMap_slash {first : List Char} {segs : List (List Char)}
    (h : '/' ∉ first) (hsegs : ∀ seg ∈ segs, '/' ∉ seg) :
    (first ++ segs.flatMap fun seg => '/' :: seg).splitOn '/' = first :: segs := by
  induction segs generalizing first with
  | nil => simpa using splitOn_eq_singleton h
  | cons seg segs ih =>
    obtain ⟨hseg, hrest⟩ := forall_mem_cons.mp hsegs
    rw [flatMap_cons, cons_append, splitOn_append_cons_self,
      splitOn_eq_singleton h, ih hseg hrest, singleton_append]

theorem tokens_pointerFromPath {path : String} (h : '[' ∉ path.toList) :
    ∃ ptr, pointerFromPath path = some ptr ∧ tokens ptr = some (pieces path) := by
  unfold pointerFromPath pieces
  split_ifs with hroot
  · exact ⟨"", rfl, rfl⟩
  · refine ⟨_, rfl, ?_⟩
    generalize hsegs : path.toList.splitOn '.' = segs
    have hne : segs ≠ [] := hsegs ▸ splitOn_ne_nil _ _
    have hsplit : (segs.flatMap fun seg => '/' :: escapePointer seg).splitOn '/' =
        [] :: segs.map escapePointer := by
      have hslash : ∀ tok ∈ segs.map escapePointer, '/' ∉ tok := by
        intro tok htok
        obtain ⟨seg, -, rfl⟩ := mem_map.mp htok
        exact slash_notMem_escapePointer seg
      have hjoined := splitOn_flatMap_slash (not_mem_nil) hslash
      rwa [nil_append, flatMap_map] at hjoined
    have hnonempty : String.ofList (segs.flatMap fun seg => '/' :: escapePointer seg) ≠ "" := by
      obtain ⟨seg, rest, rfl⟩ := exists_cons_of_ne_nil hne
      simp
    have hundo : unescape ∘ escapePointer = pure := funext unescape_escapePointer
    rw [tokens, if_neg hnonempty, String.toList_ofList, hsplit]
    change (segs.map escapePointer).mapM unescape = some segs
    rw [mapM_map, hundo]
    simpa using mapM_pure (m := Option) (l := segs) (f := id)

theorem parsePath_pieces {path : String} (h : '[' ∉ path.toList) :
    parsePath path = .ok ((pieces path).map keyOrIndex) := by
  unfold parsePath pieces
  split_ifs with hroot
  · rfl
  · have hraws : ∀ segs : List (List Char), (∀ seg ∈ segs, '[' ∉ seg) →
        parseRaws path segs = .ok (segs.map keyOrIndex) := by
      intro segs hsegs
      induction segs with
      | nil => rfl
      | cons seg segs ih =>
        obtain ⟨hseg, hrest⟩ := forall_mem_cons.mp hsegs
        simp [parseRaws, parseRaw, cut_of_notMem hseg, ih hrest]
    exact hraws _ fun seg hseg hmem => h ((of_mem_splitOn hseg).2 hmem)

end Letopis
