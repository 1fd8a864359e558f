import Letopis.Diff.Apply

/-!
# Applying changes in place

`Apply` on the values Go has: maps and slices are references to mutable storage. The state is
copied first (`deepCopy`), then `applyStep` writes into the copy; a change's new value enters the
result by reference. An object is a cell that holds its entries, the backing array of a slice is
a cell with one slot for each place of its capacity, and a slice is the address of its backing
array with a length. All slices here begin at the first slot of their array.

Appending writes into the backing array where it has room and moves to a new one otherwise; how
much room the new one has is up to the runtime (`grow`).
-/

namespace Letopis.Mutable

open SortedAssoc

/-- A Go value: a scalar, a map, or a slice. -/
inductive Ref where
  | null
  | bool (b : Bool)
  | num (n : Number)
  | str (s : String)
  | obj (addr : Nat)
  | arr (addr len : Nat)
  deriving DecidableEq

/-- A cell: the entries of a map, or the slots of a backing array. -/
inductive Cell where
  | obj (m : List (String × Ref))
  | arr (slots : List Ref)
  deriving DecidableEq

/-- The cells, by address. -/
abbrev Heap : Type := List Cell

/-- A change whose values are references. -/
structure RefChange where
  path : String
  op : ChangeOp
  old : Ref
  new : Ref

/-- `keyValString`: the path form of a scalar key value. -/
def keyText : Ref → Option String
  | .str s => some s
  | .bool b => some (if b then "true" else "false")
  | .num n => some n.formatFloat
  | .null | .obj _ | .arr _ _ => none

/-- The rendered key of an array element. -/
def elemText (h : Heap) (keyField : String) : Ref → Option String
  | .obj a =>
    match h[a]? with
    | some (.obj m) => (m.lookup keyField).bind keyText
    | _ => none
  | _ => none

/-- The position of the first element whose key field renders as `keyVal`. -/
def indexOfKey (h : Heap) (arr : List Ref) (keyField keyVal : String) : Option Nat :=
  arr.findIdx? fun el => elemText h keyField el = some keyVal

/-- `m[name] = v` on the map at an address. -/
def setKey (h : Heap) (a : Nat) (name : String) (v : Ref) : Heap :=
  match h[a]? with
  | some (.obj m) => h.set a (.obj (insert name v m))
  | _ => h

/-- `arr[i] = v` on the backing array at an address. -/
def setSlot (h : Heap) (a i : Nat) (v : Ref) : Heap :=
  match h[a]? with
  | some (.arr slots) => h.set a (.arr (slots.set i v))
  | _ => h

/-- Where a slice of length `len` has room for one more element: in its own backing array, or in
a new one with a copy of its elements. -/
def withRoom (grow : Nat → Nat) (h : Heap) (a len : Nat) (slots : List Ref) :
    Heap × Nat × List Ref :=
  if len < slots.length then (h, a, slots)
  else
    let slots' := slots.take len ++ List.replicate (grow len + 1) .null
    (h ++ [.arr slots'], h.length, slots')

/-- `arr = append(arr, nil); copy(arr[i+1:], arr[i:]); arr[i] = v`, and for `i = len` the same
as `append(arr, v)`. -/
def insertAt (grow : Nat → Nat) (h : Heap) (a len : Nat) (slots : List Ref) (i : Nat) (v : Ref) :
    Heap × Ref :=
  let (h, a, slots) := withRoom grow h a len slots
  (h.set a (.arr ((slots.take len).insertIdx i v ++ slots.drop (len + 1))), .arr a (len + 1))

/-- `append(arr[:i], arr[i+1:]...)`: the elements move down, the last slot keeps what it held. -/
def removeAt (h : Heap) (a len : Nat) (slots : List Ref) (i : Nat) : Heap × Ref :=
  (h.set a (.arr ((slots.take len).eraseIdx i ++ slots.drop (len - 1))), .arr a (len - 1))

/-- Walk one path segment and either descend or perform the change at the leaf, in place. -/
def applyStep (grow : Nat → Nat) (ch : RefChange) :
    Heap → Ref → List PathSeg → Except DiffErr (Heap × Ref)
  | _, _, [] => .error (.pathNotFound ch.path)
  | h, node, .key name :: rest =>
    match node with
    | .obj a =>
      match h[a]? with
      | some (.obj m) =>
        if rest.isEmpty then
          match ch.op with
          | .add | .change => .ok (setKey h a name ch.new, node)
          | .remove =>
            if (m.lookup name).isNone then .error (.pathNotFound ch.path)
            else .ok (h.set a (.obj (erase name m)), node)
        else
          match m.lookup name with
          | none => .error (.pathNotFound ch.path)
          | some child =>
            match applyStep grow ch h child rest with
            | .error e => .error e
            | .ok (h, nv) => .ok (setKey h a name nv, node)
      | _ => .error (.expectsObject ch.path)
    | _ => .error (.expectsObject ch.path)
  | h, node, .index i :: rest =>
    match node with
    | .arr a len =>
      match h[a]? with
      | some (.arr slots) =>
        if rest.isEmpty then
          match ch.op with
          | .add =>
            if i < 0 ∨ len < i then .error (.pathNotFound ch.path)
            else .ok (insertAt grow h a len slots i.toNat ch.new)
          | .change =>
            if i < 0 ∨ len ≤ i then .error (.pathNotFound ch.path)
            else .ok (setSlot h a i.toNat ch.new, node)
          | .remove =>
            if i < 0 ∨ len ≤ i then .error (.pathNotFound ch.path)
            else .ok (removeAt h a len slots i.toNat)
        else if i < 0 ∨ len ≤ i then .error (.pathNotFound ch.path)
        else
          match applyStep grow ch h (slots.getD i.toNat .null) rest with
          | .error e => .error e
          | .ok (h, nv) => .ok (setSlot h a i.toNat nv, node)
      | _ => .error (.expectsArray ch.path)
    | _ => .error (.expectsArray ch.path)
  | h, node, .keyed keyField keyVal :: rest =>
    match node with
    | .arr a len =>
      match h[a]? with
      | some (.arr slots) =>
        let idx := indexOfKey h (slots.take len) keyField keyVal
        if rest.isEmpty then
          match ch.op with
          | .add => .ok (insertAt grow h a len slots len ch.new)
          | .change =>
            match idx with
            | none => .error (.pathNotFound ch.path)
            | some i => .ok (setSlot h a i ch.new, node)
          | .remove =>
            match idx with
            | none => .error (.pathNotFound ch.path)
            | some i => .ok (removeAt h a len slots i)
        else
          match idx with
          | none => .error (.pathNotFound ch.path)
          | some i =>
            match applyStep grow ch h (slots.getD i .null) rest with
            | .error e => .error e
            | .ok (h, nv) => .ok (setSlot h a i nv, node)
      | _ => .error (.expectsArray ch.path)
    | _ => .error (.expectsArray ch.path)

section

variable (copy : Heap → Ref → Option (Heap × Ref))

/-- Copy the elements of a slice, one after another. -/
def copySlots (h : Heap) : List Ref → Option (Heap × List Ref)
  | [] => some (h, [])
  | r :: rs => do
    let (h, r) ← copy h r
    let (h, rs) ← copySlots h rs
    return (h, r :: rs)

/-- Copy the entries of a map, one after another. -/
def copyEntries (h : Heap) : List (String × Ref) → Option (Heap × List (String × Ref))
  | [] => some (h, [])
  | (k, r) :: m => do
    let (h, r) ← copy h r
    let (h, m) ← copyEntries h m
    return (h, (k, r) :: m)

end

/-- Copy maps and slices, down to the scalars. The fuel bounds the depth; a JSON value that was
decoded from text is never cyclic. -/
def deepCopy : Nat → Heap → Ref → Option (Heap × Ref)
  | 0, _, _ => none
  | fuel + 1, h, .obj a =>
    match h[a]? with
    | some (.obj m) => do
      let (h, m) ← copyEntries (deepCopy fuel) h m
      return (h ++ [.obj m], .obj h.length)
    | _ => none
  | fuel + 1, h, .arr a len =>
    match h[a]? with
    | some (.arr slots) => do
      let (h, slots) ← copySlots (deepCopy fuel) h (slots.take len)
      return (h ++ [.arr slots], .arr h.length len)
    | _ => none
  | _ + 1, h, r => some (h, r)

/-- Apply one change. -/
def applyOneChange (grow : Nat → Nat) (h : Heap) (result : Ref) (ch : RefChange) :
    Except DiffErr (Heap × Ref) :=
  match parsePath ch.path with
  | .error e => .error e
  | .ok [] => if ch.op = .change then .ok (h, ch.new) else .error (.rootOp ch.op)
  | .ok segs => applyStep grow ch h result segs

/-- Apply the changes in order. -/
def applyChanges (grow : Nat → Nat) (h : Heap) (result : Ref) :
    List RefChange → Except DiffErr (Heap × Ref)
  | [] => .ok (h, result)
  | ch :: chs =>
    match applyOneChange grow h result ch with
    | .error e => .error e
    | .ok (h, result) => applyChanges grow h result chs

/-- `Apply`: copy the state, then apply the changes to the copy. No result means that the copy
ran out of fuel. -/
def apply (grow : Nat → Nat) (fuel : Nat) (h : Heap) (state : Ref) (chs : List RefChange) :
    Option (Except DiffErr (Heap × Ref)) :=
  (deepCopy fuel h state).map fun (h, result) => applyChanges grow h result chs

end Letopis.Mutable
