import Letopis.Diff.Path

/-!
# Structural diffs

`diff a b` is the list of changes that turn `a` into `b`: objects are compared entry by entry
in key order, arrays by position (or, where the options name a key field and both arrays are
keyed by it, by key), and anything else that differs is one change of the whole value.

The source visits the sorted union of two maps' keys. Here maps are sorted already, so the
walk is the merge of the two entry lists: for each entry of the left map first the right
entries before it, then the entry itself. The functions are structural in the left value.
-/

namespace Letopis

/-- One structural edit between two JSON values. `old` is meaningful for `change` and
`remove`, `new` for `add` and `change`; the other one is null. -/
structure Change where
  path : String
  op : ChangeOp
  old : Json
  new : Json
  deriving DecidableEq

/-- How `diff` treats arrays: `arrayKeys` maps an array path to the element field used as a
stable identity. -/
structure DiffOptions where
  arrayKeys : List (String × String) := []

/-- The rendered key of an array element, if it is an object with a scalar under the key
field. -/
def elemKey (keyField : String) : Json → Option String
  | .obj m => (m.lookup keyField).bind keyValString
  | _ => none

/-- Every element is an object carrying a scalar, unique value under the key field. -/
def keyable (arr : List Json) (keyField : String) : Bool :=
  arr.all (fun el => (elemKey keyField el).isSome) && (arr.map (elemKey keyField)).Nodup

/-- A new key or element carries its whole subtree as one add. -/
def Change.addAt (path : String) (v : Json) : Change := ⟨path, .add, .null, v⟩

/-- A dropped key or element. -/
def Change.removeAt (path : String) (v : Json) : Change := ⟨path, .remove, v, .null⟩

/-- The elements of `b` from position `n` on, added in ascending order. -/
def addedTail (path : String) (n : Nat) (b : List Json) : List Change :=
  ((b.drop n).zipIdx n).map fun p => .addAt (indexPath path p.2) p.1

/-- The elements of `a` from position `n` on, removed in descending order. -/
def removedTail (path : String) (n : Nat) (a : List Json) : List Change :=
  ((a.drop n).zipIdx n).reverse.map fun p => .removeAt (indexPath path p.2) p.1

/-- What follows the common elements in `diffIndexArray`: tail additions ascending and tail
removals descending, so that a sequential apply never addresses a shifted index. -/
def arrayTail (path : String) (a b : List Json) : List Change :=
  addedTail path (min a.length b.length) b ++ removedTail path (min a.length b.length) a

/-- The elements of `b` whose key does not occur in `a`, added in `b`'s order. -/
def addedKeyed (path keyField : String) (a b : List Json) : List Change :=
  let aKeys := a.map fun el => (elemKey keyField el).getD ""
  (b.filter fun el => (elemKey keyField el).getD "" ∉ aKeys).map fun el =>
    .addAt (keyedPath path keyField ((elemKey keyField el).getD "")) el

mutual

/-- The changes between two values at a path. A type change is one change: the old and new
shapes are unrelated. -/
def diffValue (opts : DiffOptions) (path : String) (a b : Json) : List Change :=
  if a = b then [] else
    match a, b with
    | .obj am, .obj bm => diffMap opts path am bm
    | .arr aa, .arr ba =>
      match (opts.arrayKeys.lookup path).filter fun kf => keyable aa kf && keyable ba kf with
      | some kf => diffKeyed opts path kf aa ba ++ addedKeyed path kf aa ba
      | none => diffElems opts path 0 aa ba ++ arrayTail path aa ba
    | _, _ => [⟨path, .change, a, b⟩]
termination_by structural a

/-- The changes between two objects, in key order. -/
def diffMap (opts : DiffOptions) (path : String) (am bm : Fields) : List Change :=
  match am with
  | [] => bm.map fun p => .addAt (childPath path p.1) p.2
  | (k, av) :: am =>
    ((bm.filter fun p => p.1 < k).map fun p => .addAt (childPath path p.1) p.2) ++
      (match bm.lookup k with
        | some bv => diffValue opts (childPath path k) av bv
        | none => [.removeAt (childPath path k) av]) ++
      diffMap opts path am (bm.filter fun p => k < p.1)
termination_by structural am

/-- The changes between the elements two arrays have in common, from position `i` on: the
first loop of `diffIndexArray`. -/
def diffElems (opts : DiffOptions) (path : String) (i : Nat) (aa ba : List Json) : List Change :=
  match aa, ba with
  | av :: aa, bv :: ba =>
    diffValue opts (indexPath path i) av bv ++ diffElems opts path (i + 1) aa ba
  | _, _ => []
termination_by structural aa

/-- The changes to the elements of the left array, matched by key: the loop over `a` of
`diffKeyedArray`. -/
def diffKeyed (opts : DiffOptions) (path keyField : String) (aa ba : List Json) : List Change :=
  match aa with
  | [] => []
  | av :: aa =>
    let ks := (elemKey keyField av).getD ""
    -- `bByKey[ks]`: a later element overwrites an earlier one
    (match (ba.reverse.map fun el => ((elemKey keyField el).getD "", el)).lookup ks with
      | some bel => diffValue opts (keyedPath path keyField ks) av bel
      | none => [.removeAt (keyedPath path keyField ks) av]) ++
      diffKeyed opts path keyField aa ba
termination_by structural aa

end

/-- The changes that turn `a` into `b`. -/
def diff (a b : Json) (opts : DiffOptions) : List Change := diffValue opts "" a b

end Letopis
