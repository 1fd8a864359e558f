import Mathlib.Data.List.Chain
import Letopis.Diff.Apply

/-!
# Walks and the paths written for them

A walk leads through a value by object keys, array indices and keyed selectors. While two
values are compared, `diff` writes the walk down as one text (`walkPath`), and `parsePath`
reads the text back when the change is applied. Keys, key fields and key values are client
data and are spliced in unescaped, so not every walk survives: `walk_carried_iff` says exactly
which ones do. What is lost is of two kinds. A character of the syntax inside the data is taken
for syntax, so no parsed path contains such data (`mild_of_parsePath`). An empty key leaves no
trace at the start of a path or directly before a selector; `carried` says what is left of a
walk then.
-/

namespace Letopis

open List

/-! ### Walks -/

/-- The path one step further. -/
def PathSeg.extend (path : String) : PathSeg → String
  | .key name => childPath path name
  | .index i => indexPath path i.toNat
  | .keyed keyField keyVal => keyedPath path keyField keyVal

/-- The path written for a walk that starts at `path`. -/
def walkPath (path : String) (segs : List PathSeg) : String := segs.foldl PathSeg.extend path

/-- The segments lead somewhere in the value: to entries that are there, to elements that are
there, and through selectors to elements with that key. -/
def Json.Walks : Json → List PathSeg → Prop
  | _, [] => True
  | .obj m, .key name :: rest => ∃ v, m.lookup name = some v ∧ v.Walks rest
  | .arr xs, .index i :: rest => ∃ n : Nat, i = n ∧ ∃ x, xs[n]? = some x ∧ x.Walks rest
  | .arr xs, .keyed keyField keyVal :: rest =>
    ∃ x ∈ xs, elemKey keyField x = some keyVal ∧ x.Walks rest
  | _, _ :: _ => False

theorem walkPath_cons (path : String) (s : PathSeg) (w : List PathSeg) :
    walkPath path (s :: w) = walkPath (s.extend path) w :=
  rfl

/-- The segment is a selector. -/
def PathSeg.isKeyed : PathSeg → Bool
  | .keyed _ _ => true
  | _ => false

variable {s : PathSeg} {path : String}

private theorem PathSeg.isKeyed_eq_false (h : ∀ kf kv, s ≠ .keyed kf kv) : s.isKeyed = false := by
  cases s with
  | key | index => rfl
  | keyed kf kv => exact absurd rfl (h kf kv)

/-- The step can be taken in some value: an index is the index of a slice, a key is not a
number. -/
def PathSeg.Proper : PathSeg → Prop
  | .key name => name.toList ≠ [] → name.toList.all isDecimal = false
  | .index i => 0 ≤ i ∧ i < 2 ^ 63
  | .keyed _ _ => True

/-- The data of the step contains no character that `parsePath` takes for syntax. -/
def PathSeg.Mild : PathSeg → Prop
  | .key name => '.' ∉ name.toList ∧ '[' ∉ name.toList
  | .index _ => True
  | .keyed keyField keyVal =>
    '.' ∉ keyField.toList ∧ '=' ∉ keyField.toList ∧ '.' ∉ keyVal.toList

instance : DecidablePred PathSeg.Mild
  | .key _ => inferInstanceAs (Decidable (_ ∧ _))
  | .index _ => inferInstanceAs (Decidable True)
  | .keyed _ _ => inferInstanceAs (Decidable (_ ∧ _ ∧ _))

/-- What a value allows next to a selector: it selects an object, so an entry follows. -/
def PathSeg.Next (s t : PathSeg) : Prop := s.isKeyed = true → ∃ name, t = .key name

/-- A walk through a Go value takes proper steps, and enters what a selector selects by a
key. -/
theorem Json.Walks.proper {j : Json} {w : List PathSeg} (hj : j.WF) (hw : j.Walks w)
    (hd : ∀ name, .key name ∈ w → PathSeg.Proper (.key name)) :
    (∀ s ∈ w, s.Proper) ∧ w.IsChain PathSeg.Next := by
  induction w generalizing j with
  | nil => exact ⟨by simp, .nil⟩
  | cons s w ih =>
    have hd' : ∀ name, .key name ∈ w → PathSeg.Proper (.key name) :=
      fun name hmem => hd name (mem_cons_of_mem s hmem)
    match j, s, hw with
    | .obj m, .key name, ⟨v, hv, hw⟩ =>
      have hvwf : v.WF := (wf_obj_iff.mp hj).2 _ (SortedAssoc.mem_of_lookup hv)
      obtain ⟨hproper, hchain⟩ := ih hvwf hw hd'
      refine ⟨forall_mem_cons.mpr ⟨hd name mem_cons_self, hproper⟩, ?_⟩
      exact isChain_cons.mpr ⟨fun t _ h => Bool.noConfusion h, hchain⟩
    | .arr xs, .index i, ⟨n, hi, x, hx, hw⟩ =>
      obtain ⟨hlen, hxs⟩ := wf_arr_iff.mp hj
      obtain ⟨hproper, hchain⟩ := ih (hxs x (mem_of_getElem? hx)) hw hd'
      obtain ⟨hn, -⟩ := List.getElem?_eq_some_iff.mp hx
      refine ⟨forall_mem_cons.mpr ⟨⟨by omega, by omega⟩, hproper⟩, ?_⟩
      exact isChain_cons.mpr ⟨fun t _ h => Bool.noConfusion h, hchain⟩
    | .arr xs, .keyed keyField keyVal, ⟨x, hx, hkey, hw⟩ =>
      obtain ⟨hproper, hchain⟩ := ih ((wf_arr_iff.mp hj).2 x hx) hw hd'
      refine ⟨forall_mem_cons.mpr ⟨trivial, hproper⟩, isChain_cons.mpr ⟨?_, hchain⟩⟩
      intro t ht _
      -- the selected element has the key field, so it is an object
      match x, w, hkey, hw, ht with
      | .obj _, .key name :: _, _, _, ht => exact ⟨name, by simpa using ht.symm⟩

/-! ### What is read is free of syntax -/

/-- The parts of a cut contain only what the whole contained, and the first part not the
separator. -/
theorem of_cut_eq {sep : Char} {s before after : List Char}
    (h : cut sep s = (before, after, true)) :
    before ⊆ s ∧ after ⊆ s ∧ sep ∉ before := by
  unfold cut at h
  split at h
  · cases h
  · rename_i c rest hdrop
    cases h
    refine ⟨takeWhile_subset _, fun x hx => ?_, fun hmem => ?_⟩
    · exact dropWhile_subset _ (hdrop ▸ mem_cons_of_mem c hx)
    · simpa using mem_takeWhile_imp hmem

private theorem trimBracket_subset (s : List Char) : trimBracket s ⊆ s := by
  unfold trimBracket
  split_ifs
  · exact dropLast_subset s
  · exact List.Subset.refl s

private theorem mild_keyOrIndex {seg : List Char} (hdot : '.' ∉ seg) (hbr : '[' ∉ seg) :
    (keyOrIndex seg).Mild := by
  unfold keyOrIndex
  split
  · trivial
  · simpa [PathSeg.Mild] using ⟨hdot, hbr⟩

private theorem mild_of_parseRaw {raw : List Char} {segs : List PathSeg}
    (h : parseRaw path raw = .ok segs) (hdot : '.' ∉ raw) : ∀ s ∈ segs, s.Mild := by
  unfold parseRaw at h
  split at h
  · rename_i hcut
    cases h
    have hbr : '[' ∉ raw := by
      intro hmem
      unfold cut at hcut
      split at hcut
      · rename_i hdrop
        exact absurd (dropWhile_eq_nil_iff.mp hdrop _ hmem) (by simp)
      · cases hcut
    simpa using mild_keyOrIndex hdot hbr
  · rename_i name sel hcut
    obtain ⟨hname, hsel, hbr⟩ := of_cut_eq hcut
    split at h
    · cases h
    · rename_i field val hcut'
      cases h
      obtain ⟨hfield, hval, heq⟩ := of_cut_eq hcut'
      have hin : trimBracket sel ⊆ raw := List.Subset.trans (trimBracket_subset sel) hsel
      have hseg : PathSeg.Mild (.keyed (String.ofList field) (String.ofList val)) := by
        simp only [PathSeg.Mild, String.toList_ofList]
        exact ⟨fun hm => hdot (hin (hfield hm)), heq, fun hm => hdot (hin (hval hm))⟩
      split_ifs
      · simpa using hseg
      · simpa using ⟨mild_keyOrIndex (fun hm => hdot (hname hm)) hbr, hseg⟩

private theorem mild_of_parsePath {segs : List PathSeg} (h : parsePath path = .ok segs) :
    ∀ s ∈ segs, s.Mild := by
  have hraws : ∀ (raws : List (List Char)) (segs : List PathSeg), (∀ raw ∈ raws, '.' ∉ raw) →
      parseRaws path raws = .ok segs → ∀ s ∈ segs, s.Mild := by
    intro raws
    induction raws with
    | nil =>
      intro segs _ h
      cases h
      simp
    | cons raw raws ih =>
      intro segs hdot h
      simp only [parseRaws] at h
      split at h
      · cases h
      · rename_i first hfirst
        split at h
        · cases h
        · rename_i rest hrest
          cases h
          obtain ⟨hraw, hraws⟩ := forall_mem_cons.mp hdot
          exact forall_mem_append.mpr
            ⟨mild_of_parseRaw hfirst hraw, ih rest hraws hrest⟩
  rw [parsePath] at h
  split_ifs at h with hroot
  · cases h
    simp
  · exact hraws _ segs (fun raw hraw => (of_mem_splitOn hraw).1) h

/-! ### What is left of a walk -/

/-- What the path of a walk is read back as when its data is mild; `start` says that nothing is
written yet. An empty key writes nothing at the start, and nothing that is read directly before
a selector. -/
def carried : Bool → List PathSeg → List PathSeg
  | _, [] => []
  | _, .keyed keyField keyVal :: rest => .keyed keyField keyVal :: carried false rest
  | _, s :: .keyed keyField keyVal :: rest =>
    (if s = .key "" then [] else [s]) ++ .keyed keyField keyVal :: carried false rest
  | start, s :: rest =>
    if start = true ∧ s = .key "" then carried true rest else s :: carried false rest

private theorem length_carried_le (start : Bool) (w : List PathSeg) :
    (carried start w).length ≤ w.length := by
  fun_induction carried start w with
  | case1 => exact le_rfl
  | case2 _ _ _ _ ih => simpa using ih
  | case3 _ s _ _ _ _ ih =>
    split_ifs <;> simp only [length_append, length_cons, length_nil] <;> omega
  | case4 _ _ _ _ _ _ ih => exact ih.trans (Nat.le_succ _)
  | case5 _ _ _ _ _ _ ih => simpa using ih

/-- An empty key is not directly before a selector. -/
def PathSeg.Parted (s t : PathSeg) : Prop := s = .key "" → t.isKeyed = false

instance : DecidableRel PathSeg.Parted := fun _ _ => inferInstanceAs (Decidable (_ → _))

/-- The whole walk is left exactly if it has no empty key in the two bad places. -/
theorem carried_eq_self_iff {start : Bool} {w : List PathSeg} : carried start w = w ↔
    (start = true → w.head? ≠ some (.key "")) ∧ w.IsChain PathSeg.Parted := by
  fun_induction carried start w with
  | case1 => simp
  | case2 start kf kv rest ih =>
    simp [isChain_cons, ih, PathSeg.Parted]
  | case3 start s kf kv rest hs ih =>
    by_cases hempty : s = .key ""
    · rw [if_pos hempty, hempty]
      simp [PathSeg.Parted, PathSeg.isKeyed]
    · simp [isChain_cons, ih, PathSeg.Parted, hempty]
  | case4 start s rest hs hrest hstart ih =>
    obtain ⟨rfl, rfl⟩ := hstart
    have hlen := length_carried_le true rest
    refine iff_of_false (fun h => ?_) (by simp)
    rw [h, length_cons] at hlen
    omega
  | case5 start s rest hs hrest hstart ih =>
    have hparted : ∀ t ∈ rest.head?, s.Parted t := by
      intro t ht _
      cases t with
      | keyed kf kv =>
        obtain ⟨rest', rfl⟩ : ∃ rest', rest = .keyed kf kv :: rest' := by
          cases rest with
          | nil => simp at ht
          | cons u rest' => exact ⟨rest', by simpa using ht⟩
        exact absurd rfl (hrest kf kv rest')
      | key | index => rfl
    have hhead : start = true → s ≠ .key "" := fun h1 h2 => hstart ⟨h1, h2⟩
    rw [isChain_cons, cons_inj_right, ih]
    exact ⟨fun h => ⟨by simpa using hhead, hparted, h.2⟩, fun h => ⟨by simp, h.2.2⟩⟩

/-! ### Reading the path of a walk -/

private theorem cut_append {sep : Char} {s t : List Char} (h : sep ∉ s) :
    cut sep (s ++ sep :: t) = (s, t, true) := by
  have hs : ∀ c ∈ s, (decide (c ≠ sep)) = true := fun c hc => by
    simpa using ne_of_mem_of_not_mem hc h
  have hdrop : (s ++ sep :: t).dropWhile (· ≠ sep) = sep :: t := by
    rw [dropWhile_append_of_pos hs]
    simp
  have htake : (s ++ sep :: t).takeWhile (· ≠ sep) = s := by
    rw [takeWhile_append_of_pos hs]
    simp
  simp only [cut, hdrop, htake]

/-- A piece with a selector reads as the key or index before it and the selector. -/
theorem parseRaw_keyedPath {q name keyField keyVal : String} (hname : '[' ∉ name.toList)
    (hfield : '=' ∉ keyField.toList) : parseRaw q (keyedPath name keyField keyVal).toList =
      .ok ((if name = "" then [] else [keyOrIndex name.toList]) ++ [.keyed keyField keyVal]) := by
  have hlist : (keyedPath name keyField keyVal).toList =
      name.toList ++ '[' :: (keyField.toList ++ '=' :: keyVal.toList ++ [']']) := by
    simp [keyedPath, String.toList_append]
  have htrim (t : List Char) : trimBracket (t ++ [']']) = t := by simp [trimBracket]
  rw [hlist, parseRaw, cut_append hname]
  simp only [htrim, cut_append hfield, String.ofList_toList, String.toList_eq_nil_iff]
  split_ifs <;> rfl

private theorem keyedPath_childPath (path name keyField keyVal : String) :
    keyedPath (childPath path name) keyField keyVal =
      childPath path (keyedPath name keyField keyVal) := by
  unfold childPath
  split_ifs
  · rfl
  · simp [keyedPath, String.append_assoc]

/-- **Selectors.** The path of a selected element reads back as the array's path and the
selector, an empty name of the array being lost. -/
theorem parsePath_keyedPath {name keyField keyVal : String} {pre : List PathSeg}
    (hpre : parsePath path = .ok pre) (hdot : '.' ∉ name.toList) (hbr : '[' ∉ name.toList)
    (hmild : PathSeg.Mild (.keyed keyField keyVal)) :
    parsePath (keyedPath (childPath path name) keyField keyVal) =
      .ok (pre ++ ((if name = "" then [] else [keyOrIndex name.toList]) ++
        [.keyed keyField keyVal])) := by
  obtain ⟨hfield, heq, hval⟩ := hmild
  rw [keyedPath_childPath]
  refine parsePath_childPath hpre ?_ ?_ fun q => parseRaw_keyedPath hbr heq
  · intro hempty
    simp [keyedPath] at hempty
  · simp [keyedPath, String.toList_append, hdot, hfield, hval]

/-- What a key or an index writes. -/
def PathSeg.text : PathSeg → String
  | .key name => name
  | .index i => Nat.repr i.toNat
  | .keyed keyField keyVal => keyedPath "" keyField keyVal

theorem PathSeg.text_eq_empty : s.text = "" ↔ s = .key "" := by
  cases s with
  | key name => simp [text]
  | index i => simp [text]
  | keyed => simp [text, keyedPath]

theorem PathSeg.notMem_text (hs : s.Mild) (hk : s.isKeyed = false) :
    '.' ∉ s.text.toList ∧ '[' ∉ s.text.toList := by
  cases s with
  | key name => exact hs
  | index i => exact ⟨notMem_repr rfl, notMem_repr rfl⟩
  | keyed => cases hk

private theorem PathSeg.keyOrIndex_text (hs : s.Proper) (hk : s.isKeyed = false) :
    keyOrIndex s.text.toList = s := by
  cases s with
  | key name => exact keyOrIndex_key hs
  | index i =>
    obtain ⟨h0, hlt⟩ := hs
    rw [text, keyOrIndex_repr (by omega), Int.toNat_of_nonneg h0]
  | keyed => cases hk

@[simp] theorem PathSeg.extend_keyed (path keyField keyVal : String) :
    (PathSeg.keyed keyField keyVal).extend path = keyedPath path keyField keyVal :=
  rfl

theorem PathSeg.extend_eq (hk : s.isKeyed = false) (path : String) :
    s.extend path = childPath path s.text := by
  cases s with
  | key | index => rfl
  | keyed => cases hk

theorem childPath_eq_empty {key : String} : childPath path key = "" ↔ path = "" ∧ key = "" := by
  unfold childPath
  split_ifs with h <;> simp [h]

private theorem parsePath_walkPath {start : Bool} {w : List PathSeg} {pre : List PathSeg}
    (hpre : parsePath path = .ok pre) (hstart : start = true ↔ path = "")
    (hproper : ∀ s ∈ w, s.Proper) (hmild : ∀ s ∈ w, s.Mild) (hnext : w.IsChain PathSeg.Next)
    (hhead : ∀ s ∈ w.head?, s.isKeyed = true → path = "") :
    parsePath (walkPath path w) = .ok (pre ++ carried start w) := by
  fun_induction carried start w generalizing path pre with
  | case1 => simpa [walkPath] using hpre
  | case2 start kf kv rest ih =>
    -- a selector at the very start
    obtain rfl : path = "" := hhead _ rfl rfl
    cases hpre
    obtain ⟨hsel, hmild⟩ := forall_mem_cons.mp hmild
    obtain ⟨hfirst, hnext⟩ := isChain_cons.mp hnext
    have hroot : parsePath "" = .ok [] := rfl
    have hpath := parsePath_keyedPath hroot (by simp : '.' ∉ "".toList) (by simp) hsel
    have hrest := ih hpath (by simp [keyedPath]) (forall_mem_cons.mp hproper).2 hmild hnext ?_
    · simpa [walkPath, PathSeg.extend, childPath] using hrest
    · intro s hs hkeyed
      obtain ⟨name, rfl⟩ := hfirst s hs rfl
      cases hkeyed
  | case3 start s kf kv rest hs ih =>
    -- a key or an index and its selector are one piece
    have hs := PathSeg.isKeyed_eq_false hs
    obtain ⟨hmilds, hsel, hmild⟩ := by simpa only [forall_mem_cons] using hmild
    obtain ⟨hpropers, -, hproper⟩ := by simpa only [forall_mem_cons] using hproper
    obtain ⟨hfirst, hnext⟩ := isChain_cons.mp (isChain_cons.mp hnext).2
    obtain ⟨hdot, hbr⟩ := PathSeg.notMem_text hmilds hs
    have hpath := parsePath_keyedPath hpre hdot hbr hsel
    rw [PathSeg.keyOrIndex_text hpropers hs] at hpath
    simp only [PathSeg.text_eq_empty] at hpath
    have hrest := ih hpath (by simp [keyedPath]) hproper hmild hnext ?_
    · rw [walkPath_cons, walkPath_cons, PathSeg.extend_eq hs]
      simpa using hrest
    · intro s hs hkeyed
      obtain ⟨name, rfl⟩ := hfirst s hs rfl
      cases hkeyed
  | case4 start s rest hs hrest hempty ih =>
    -- nothing is written
    obtain ⟨rfl, rfl⟩ := hempty
    obtain rfl : path = "" := hstart.mp rfl
    obtain ⟨-, hnext⟩ := isChain_cons.mp hnext
    exact ih hpre hstart (forall_mem_cons.mp hproper).2 (forall_mem_cons.mp hmild).2
      hnext fun _ _ _ => rfl
  | case5 start s rest hs hrest hempty ih =>
    have hs := PathSeg.isKeyed_eq_false hs
    obtain ⟨hmilds, hmild⟩ := forall_mem_cons.mp hmild
    obtain ⟨hpropers, hproper⟩ := forall_mem_cons.mp hproper
    obtain ⟨hdot, hbr⟩ := PathSeg.notMem_text hmilds hs
    have hne : ¬(path = "" ∧ s.text = "") := by rwa [← hstart, PathSeg.text_eq_empty]
    have hpath : parsePath (childPath path s.text) = .ok (pre ++ [s]) := by
      refine parsePath_childPath hpre (fun ht hp => hne ⟨hp, ht⟩) hdot fun q => ?_
      simp [parseRaw, cut_of_notMem hbr, PathSeg.keyOrIndex_text hpropers hs]
    have hrest' := ih hpath (by simpa [childPath_eq_empty] using hne) hproper hmild
      (isChain_cons.mp hnext).2 ?_
    · rw [walkPath_cons, PathSeg.extend_eq hs]
      simpa using hrest'
    · intro t ht hkeyed
      cases t with
      | keyed kf kv =>
        cases rest with
        | nil => simp at ht
        | cons u rest => exact absurd (by simpa using ht) (hrest kf kv rest)
      | key | index => cases hkeyed

/-! ### The walks that survive -/

/-- The walk survives being written down: no key contains `.` or `[`, no key field `.` or `=`,
no key value `.`, the first step is not the empty key, and no empty key is directly before a
selector. -/
structure Carries (w : List PathSeg) : Prop where
  /-- The data contains none of the syntax it would be taken for. -/
  mild : ∀ s ∈ w, s.Mild
  head : w.head? ≠ some (.key "")
  parted : w.IsChain PathSeg.Parted

instance (w : List PathSeg) : Decidable (Carries w) :=
  decidable_of_iff ((∀ s ∈ w, s.Mild) ∧ w.head? ≠ some (.key "") ∧ w.IsChain PathSeg.Parted)
    ⟨fun ⟨h, h', h''⟩ => ⟨h, h', h''⟩, fun ⟨h, h', h''⟩ => ⟨h, h', h''⟩⟩

/-- **Walks.** The path of a walk through a value reads back as the walk exactly if the walk
survives being written down. Among those walks no two share a path, and a change at such a path
is applied at the end of the walk. -/
theorem walk_carried_iff {j : Json} {w : List PathSeg} (hj : j.WF) (hw : j.Walks w)
    (hkeys : ∀ name, .key name ∈ w → PathSeg.Proper (.key name)) :
    (parsePath (walkPath "" w) = .ok w ↔ Carries w) ∧
    (Carries w → ∀ {j' : Json} {w' : List PathSeg}, j'.WF → j'.Walks w' →
      (∀ name, .key name ∈ w' → PathSeg.Proper (.key name)) → Carries w' →
      walkPath "" w = walkPath "" w' → w = w') ∧
    (Carries w → ∀ (v : Json) (ch : Change), ch.path = walkPath "" w →
      applyOneChange v ch = applyAt ch v w) := by
  have hiff : ∀ {j : Json} {w : List PathSeg}, j.WF → j.Walks w →
      (∀ name, .key name ∈ w → PathSeg.Proper (.key name)) →
      (parsePath (walkPath "" w) = .ok w ↔ Carries w) := by
    intro j w hj hw hkeys
    obtain ⟨hproper, hnext⟩ := hw.proper hj hkeys
    have hroot : parsePath "" = .ok [] := rfl
    have hread : (∀ s ∈ w, s.Mild) → parsePath (walkPath "" w) = .ok (carried true w) :=
      fun hmild => parsePath_walkPath hroot (by simp) hproper hmild hnext fun _ _ _ => rfl
    constructor
    · intro h
      have hmild := mild_of_parsePath h
      have hself : carried true w = w := Except.ok.inj ((hread hmild).symm.trans h)
      obtain ⟨hhead, hparted⟩ := carried_eq_self_iff.mp hself
      exact ⟨hmild, hhead rfl, hparted⟩
    · rintro ⟨hmild, hhead, hparted⟩
      rw [hread hmild, carried_eq_self_iff.mpr ⟨fun _ => hhead, hparted⟩]
  refine ⟨hiff hj hw hkeys, fun hc j' w' hj' hw' hkeys' hc' heq => ?_, fun hc v ch hpath => ?_⟩
  · have hread := (hiff hj hw hkeys).mpr hc
    rw [heq, (hiff hj' hw' hkeys').mpr hc'] at hread
    exact (Except.ok.inj hread).symm
  · simp only [applyOneChange, hpath, (hiff hj hw hkeys).mpr hc]

/-- A nested object with one element of a keyed array, and a walk to a field of that element. -/
theorem walk_carried_iff_item :
    parsePath (walkPath "" [.key "order", .key "items", .keyed "sku" "A-1", .key "qty"]) =
      .ok [.key "order", .key "items", .keyed "sku" "A-1", .key "qty"] := by
  have hw : Json.Walks
      (.obj [("order", .obj [("items", .arr [.obj [("qty", .null), ("sku", .str "A-1")]])])])
      [.key "order", .key "items", .keyed "sku" "A-1", .key "qty"] :=
    ⟨_, rfl, _, rfl, _, mem_cons_self, rfl, _, rfl, trivial⟩
  refine (walk_carried_iff (by decide) hw fun name hname => ?_).1.mpr (by decide)
  simp only [mem_cons, PathSeg.key.injEq, reduceCtorEq, not_mem_nil, or_false,
    false_or] at hname
  rcases hname with rfl | rfl | rfl <;> exact fun _ => by decide

/-- A dot inside a key: the walk to the entry `a.b` and the walk through `a` to its entry `b`
share a path, the first is read back as the second, and applying the difference of two objects
edits the wrong one of the two entries. -/
theorem dotted_key_misread :
    let j (inner outer : Json) := Json.obj [("a", .obj [("b", inner)]), ("a.b", outer)]
    (j .null .null).WF ∧ (j .null .null).Walks [.key "a.b"] ∧
    (j .null .null).Walks [.key "a", .key "b"] ∧
    walkPath "" [.key "a.b"] = walkPath "" [.key "a", .key "b"] ∧
    parsePath (walkPath "" [.key "a.b"]) = .ok [.key "a", .key "b"] ∧
    apply (j .null .null) (diff (j .null .null) (j .null (.bool true)) {}) =
      .ok (j (.bool true) .null) := by
  refine ⟨by decide, ⟨_, rfl, trivial⟩, ⟨_, rfl, _, rfl, trivial⟩, by decide, by decide, ?_⟩
  decide

end Letopis
