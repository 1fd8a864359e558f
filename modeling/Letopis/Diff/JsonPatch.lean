import Letopis.Diff.Diff

/-!
# Export to JSON Patch

A change list is exported as a list of RFC 6902 operations. A path that selects an array element by
its key has no JSON pointer, so a list with such a path cannot be exported.
-/

namespace Letopis

/-- The kinds of an operation. -/
inductive PatchKind where
  | add
  | replace
  | remove
  deriving DecidableEq

/-- An operation of a patch, with the target as a JSON pointer. -/
structure JSONPatchOp where
  op : PatchKind
  path : String
  value : Option Json

/-- The escape of a character in a pointer token. -/
def pointerChar : Char → List Char
  | '~' => ['~', '0']
  | '/' => ['~', '1']
  | c => [c]

/-- The token of a path segment. -/
def escapePointer (seg : List Char) : List Char := seg.flatMap pointerChar

/-- The pointer of a dot-notation path, none for a path with a keyed segment. -/
def pointerFromPath (path : String) : Option String :=
  if path = "" then some ""
  else if '[' ∈ path.toList then none
  else some (String.ofList ((path.toList.splitOn '.').flatMap fun seg => '/' :: escapePointer seg))

/-- The operation of a change. -/
def Change.toPatchOp (ch : Change) : Option JSONPatchOp :=
  (pointerFromPath ch.path).map fun ptr =>
    match ch.op with
    | .add => ⟨.add, ptr, some ch.new⟩
    | .change => ⟨.replace, ptr, some ch.new⟩
    | .remove => ⟨.remove, ptr, none⟩

/-- The patch of a change list. -/
def toJSONPatch (changes : List Change) : Option (List JSONPatchOp) := changes.mapM Change.toPatchOp

end Letopis
