import Letopis.Diff.Diff

/-!
# Applying changes

`apply` replays a change list onto a value, one change after another. Each change names its
place by a textual path; `applyStep` walks the parsed segments down the value and edits it at
the leaf. Values are immutable here, so the deep copy the source starts with is the value
itself.
-/

namespace Letopis

open SortedAssoc List

/-- The position of the first element whose key field renders as `keyVal`. -/
def indexOfKey (arr : List Json) (keyField keyVal : String) : Option Nat :=
  arr.findIdx? fun el => elemKey keyField el = some keyVal

/-- Walk one path segment and either descend or perform the change at the leaf. `apply` never
passes an empty path. -/
def applyStep (ch : Change) : Json → List PathSeg → Except DiffErr Json
  | _, [] => .error (.pathNotFound ch.path)
  | node, .key name :: rest =>
    match node with
    | .obj m =>
      if rest.isEmpty then
        match ch.op with
        | .add | .change => .ok (.obj (insert name ch.new m))
        | .remove =>
          if (m.lookup name).isNone then .error (.pathNotFound ch.path)
          else .ok (.obj (erase name m))
      else
        match m.lookup name with
        | none => .error (.pathNotFound ch.path)
        | some child =>
          match applyStep ch child rest with
          | .error e => .error e
          | .ok nv => .ok (.obj (insert name nv m))
    | _ => .error (.expectsObject ch.path)
  | node, .index i :: rest =>
    match node with
    | .arr arr =>
      if rest.isEmpty then
        match ch.op with
        | .add =>
          if i < 0 ∨ arr.length < i then .error (.pathNotFound ch.path)
          else .ok (.arr (arr.insertIdx i.toNat ch.new))
        | .change =>
          if i < 0 ∨ arr.length ≤ i then .error (.pathNotFound ch.path)
          else .ok (.arr (arr.set i.toNat ch.new))
        | .remove =>
          if i < 0 ∨ arr.length ≤ i then .error (.pathNotFound ch.path)
          else .ok (.arr (arr.eraseIdx i.toNat))
      else if i < 0 ∨ arr.length ≤ i then .error (.pathNotFound ch.path)
      else
        match applyStep ch (arr.getD i.toNat .null) rest with
        | .error e => .error e
        | .ok nv => .ok (.arr (arr.set i.toNat nv))
    | _ => .error (.expectsArray ch.path)
  | node, .keyed keyField keyVal :: rest =>
    match node with
    | .arr arr =>
      if rest.isEmpty then
        match ch.op with
        -- an added element carries its own key inside `new`
        | .add => .ok (.arr (arr ++ [ch.new]))
        | .change =>
          match indexOfKey arr keyField keyVal with
          | none => .error (.pathNotFound ch.path)
          | some idx => .ok (.arr (arr.set idx ch.new))
        | .remove =>
          match indexOfKey arr keyField keyVal with
          | none => .error (.pathNotFound ch.path)
          | some idx => .ok (.arr (arr.eraseIdx idx))
      else
        match indexOfKey arr keyField keyVal with
        | none => .error (.pathNotFound ch.path)
        | some idx =>
          match applyStep ch (arr.getD idx .null) rest with
          | .error e => .error e
          | .ok nv => .ok (.arr (arr.set idx nv))
    | _ => .error (.expectsArray ch.path)

/-- Perform a change at a place given by segments. The empty path targets the whole value,
where only a replacement makes sense. -/
def applyAt (ch : Change) (node : Json) : List PathSeg → Except DiffErr Json
  | [] => if ch.op = .change then .ok ch.new else .error (.rootOp ch.op)
  | segs => applyStep ch node segs

/-- Apply one change. -/
def applyOneChange (result : Json) (ch : Change) : Except DiffErr Json :=
  match parsePath ch.path with
  | .error e => .error e
  | .ok segs => applyAt ch result segs

/-- Apply the changes in order. -/
def apply (state : Json) (changes : List Change) : Except DiffErr Json :=
  match changes with
  | [] => .ok state
  | ch :: changes =>
    match applyOneChange state ch with
    | .error e => .error e
    | .ok result => apply result changes

/-! ### A step into an object

The entry at the key is edited on its own, and put back. -/

/-- What a change does to the entry it names or enters; `none` is no entry. -/
def applyEntry (ch : Change) (entry : Option Json) (rest : List PathSeg) :
    Except DiffErr (Option Json) :=
  match rest, entry with
  | [], entry =>
    match ch.op with
    | .add | .change => .ok (some ch.new)
    | .remove => if entry.isNone then .error (.pathNotFound ch.path) else .ok none
  | _ :: _, none => .error (.pathNotFound ch.path)
  | rest, some child => (applyStep ch child rest).map some

/-- Put an entry into an object, or take it out. -/
def setEntry (k : String) (entry : Option Json) (m : Fields) : Fields :=
  match entry with
  | some v => insert k v m
  | none => erase k m

theorem applyStep_obj (ch : Change) (m : Fields) (k : String) (rest : List PathSeg) :
    applyStep ch (.obj m) (.key k :: rest) =
      (applyEntry ch (m.lookup k) rest).map fun entry => .obj (setEntry k entry m) := by
  cases rest with
  | nil =>
    simp only [applyStep, applyEntry, isEmpty_nil, if_true]
    cases ch.op with
    | add | change => rfl
    | remove => split_ifs <;> rfl
  | cons s rest =>
    simp only [applyStep, applyEntry, isEmpty_cons, Bool.false_eq_true, if_false]
    cases m.lookup k with
    | none => rfl
    | some child =>
      simp only
      cases applyStep ch child (s :: rest) <;> rfl

theorem lookup_setEntry (k k' : String) (entry : Option Json) (m : Fields) :
    (setEntry k entry m).lookup k' = if k' = k then entry else m.lookup k' := by
  cases entry with
  | none => exact lookup_erase
  | some v => exact lookup_insert

theorem sorted_setEntry {k : String} {entry : Option Json} {m : Fields} (hm : Sorted m) :
    Sorted (setEntry k entry m) := by
  cases entry with
  | none => exact sorted_erase hm
  | some v => exact sorted_insert hm

theorem setEntry_lookup {k : String} {m : Fields} (hm : Sorted m) :
    setEntry k (m.lookup k) m = m := by
  refine ext_lookup (sorted_setEntry hm) hm fun k' => ?_
  rw [lookup_setEntry]
  split_ifs with hk
  · rw [hk]
  · rfl

theorem setEntry_setEntry {k : String} {x y : Option Json} {m : Fields} (hm : Sorted m) :
    setEntry k y (setEntry k x m) = setEntry k y m := by
  refine ext_lookup (sorted_setEntry (sorted_setEntry hm)) (sorted_setEntry hm) fun k' => ?_
  simp only [lookup_setEntry]
  split_ifs <;> rfl

/-! ### A step into an array -/

/-- What a change does to an array at a position. -/
def applyElems (ch : Change) (arr : List Json) (i : Int) (rest : List PathSeg) :
    Except DiffErr (List Json) :=
  match rest with
  | [] =>
    match ch.op with
    | .add => if i < 0 ∨ arr.length < i then .error (.pathNotFound ch.path)
      else .ok (arr.insertIdx i.toNat ch.new)
    | .change => if i < 0 ∨ arr.length ≤ i then .error (.pathNotFound ch.path)
      else .ok (arr.set i.toNat ch.new)
    | .remove => if i < 0 ∨ arr.length ≤ i then .error (.pathNotFound ch.path)
      else .ok (arr.eraseIdx i.toNat)
  | rest => if i < 0 ∨ arr.length ≤ i then .error (.pathNotFound ch.path)
    else (applyStep ch (arr.getD i.toNat .null) rest).map fun nv => arr.set i.toNat nv

theorem applyStep_arr (ch : Change) (arr : List Json) (i : Int) (rest : List PathSeg) :
    applyStep ch (.arr arr) (.index i :: rest) = (applyElems ch arr i rest).map .arr := by
  cases rest with
  | nil =>
    simp only [applyStep, applyElems, isEmpty_nil, if_true]
    cases ch.op <;> simp only <;> split_ifs <;> rfl
  | cons s rest =>
    simp only [applyStep, applyElems, isEmpty_cons, Bool.false_eq_true, if_false]
    split_ifs
    · rfl
    · cases applyStep ch (arr.getD i.toNat .null) (s :: rest) <;> rfl

private theorem insertIdx_append {α : Type} (l arr : List α) (i : Nat) (x : α) :
    (l ++ arr).insertIdx (l.length + i) x = l ++ arr.insertIdx i x := by
  induction l with
  | nil => simp
  | cons y l ih => simp [Nat.succ_add, ih]

theorem applyElems_append (ch : Change) (l arr : List Json) (i : Nat) (rest : List PathSeg) :
    applyElems ch (l ++ arr) (l.length + i : Nat) rest =
      (applyElems ch arr i rest).map (l ++ ·) := by
  have hlt : (((l.length + i : Nat) : Int) < 0 ∨ ((l ++ arr).length : Int) < (l.length + i : Nat)) ↔
      ((i : Int) < 0 ∨ (arr.length : Int) < i) := by
    rw [length_append]
    omega
  have hle : (((l.length + i : Nat) : Int) < 0 ∨ ((l ++ arr).length : Int) ≤ (l.length + i : Nat)) ↔
      ((i : Int) < 0 ∨ (arr.length : Int) ≤ i) := by
    rw [length_append]
    omega
  cases rest with
  | nil =>
    simp only [applyElems, hlt, hle, Int.toNat_natCast]
    cases ch.op with
    | add =>
      simp only
      split_ifs
      · rfl
      · simp only [Except.map, insertIdx_append]
    | change => simp only; split_ifs <;> simp [Except.map]
    | remove => simp only; split_ifs <;> simp [Except.map, eraseIdx_append_of_length_le]
  | cons s rest =>
    have hget : (l ++ arr).getD (l.length + i) .null = arr.getD i .null := by
      simp only [getD_eq_getElem?_getD, getElem?_append_right (Nat.le_add_right _ i),
        Nat.add_sub_cancel_left]
    simp only [applyElems, hle, Int.toNat_natCast, hget]
    split_ifs
    · rfl
    · cases applyStep ch (arr.getD i .null) (s :: rest) <;> simp [Except.map]

end Letopis
