import Letopis.Diff.Exact
import Letopis.Diff.Rfc6902

/-!
# Patches and change lists

A change list that `apply` accepts is exported with `toJSONPatch` and the patch is applied after
RFC 6902. The two agree on most changes. They do not where the rules of `apply` are laxer: it sets a
member that is said to change and is not there, while `replace` needs it; it takes `01` for the
index one, while an index has no leading zeros; and it reads digits into an integer that wraps
around. For a list of changes, the patch gives the same result exactly if no change of the list is
of this kind when its turn comes (`patch_agrees_iff`).
-/

namespace Letopis

open SortedAssoc Rfc6902 List

/-! ### Changes that can be exported -/

/-- A piece of digits is the text of an index: no leading zero, and not too large for an `int`. -/
def IndexText (seg : List Char) : Prop :=
  seg ≠ [] ∧ seg.all isDecimal = true →
    (seg.head? = some '0' → seg = ['0']) ∧ Nat.ofDigitChars 10 seg 0 < 2 ^ 63

instance (seg : List Char) : Decidable (IndexText seg) := inferInstanceAs (Decidable (_ → _))

/-- The change means the same as its patch operation: its indices are written as such, and what it
says to change is there. -/
def Change.Exportable (v : Json) (ch : Change) : Prop :=
  (∀ seg ∈ pieces ch.path, IndexText seg) ∧
    (ch.op = .change → (v.resolve ((pieces ch.path).map keyOrIndex)).isSome = true)

instance (v : Json) (ch : Change) : Decidable (ch.Exportable v) :=
  inferInstanceAs (Decidable (_ ∧ _))

/-- Every change can be exported when its turn comes. -/
def Exportable (v : Json) : List Change → Prop
  | [] => True
  | ch :: chs => ch.Exportable v ∧ ∀ v' ∈ (applyOneChange v ch).toOption, Exportable v' chs

/-- Whether a list can be exported is decided along the run. -/
def decidableExportable : (v : Json) → (chs : List Change) → Decidable (Exportable v chs)
  | _, [] => inferInstanceAs (Decidable True)
  | _, _ :: chs =>
    have := fun v' => decidableExportable v' chs
    inferInstanceAs (Decidable (_ ∧ _))

instance (v : Json) (chs : List Change) : Decidable (Exportable v chs) := decidableExportable v chs

/-- What the patch operation of a change does. -/
def Change.action (ch : Change) : Action :=
  match ch.op with
  | .add => .add ch.new
  | .change => .replace ch.new
  | .remove => .remove

private theorem applyOp_toPatchOp {ch : Change} (h : '[' ∉ ch.path.toList) :
    ∃ op, ch.toPatchOp = some op ∧ ∀ v, applyOp v op = ch.action.edit v (pieces ch.path) := by
  obtain ⟨ptr, hptr, htok⟩ := tokens_pointerFromPath h
  simp only [Change.toPatchOp, hptr, Option.map_some, Option.some.injEq, exists_eq_left',
    Change.action]
  intro v
  cases ch.op <;> simp [applyOp, Rfc6902.action, htok]

/-! ### Indices -/

private theorem arrayIndex_of_indexText {seg : List Char} {i : Int} (h : atoiIndex seg = some i)
    (ht : IndexText seg) : ∃ n : Nat, i = n ∧ arrayIndex seg = some n := by
  unfold atoiIndex at h
  split_ifs at h with hguard
  obtain ⟨hzero, hlt⟩ := ht hguard
  have hdigits : ∀ c ∈ seg, c.isDigit := fun c hc =>
    (isDecimal_eq_isDigit c).symm.trans (all_eq_true.mp hguard.2 c hc)
  refine ⟨Nat.ofDigitChars 10 seg 0, ?_, ?_⟩
  · rw [← Option.some.inj h]
    exact foldl_atoiStep 0 hdigits hlt
  · exact if_pos ⟨hguard.1, all_eq_true.mpr hdigits, hzero⟩

private theorem indexText_of_arrayIndex {seg : List Char} {n : Nat} (h : arrayIndex seg = some n)
    (hn : n < 2 ^ 63) : IndexText seg := by
  unfold arrayIndex at h
  split_ifs at h with hguard
  intro _
  exact ⟨hguard.2.2, (Option.some.inj h).symm ▸ hn⟩

private theorem keyOrIndex_cases (seg : List Char) :
    (∃ i, atoiIndex seg = some i ∧ keyOrIndex seg = .index i) ∨
      (atoiIndex seg = none ∧ keyOrIndex seg = .key (.ofList seg)) := by
  unfold keyOrIndex
  cases hseg : atoiIndex seg with
  | none => exact .inr ⟨rfl, rfl⟩
  | some i => exact .inl ⟨i, rfl, rfl⟩

private theorem indexText_of_atoiIndex_eq_none {seg : List Char} (h : atoiIndex seg = none) :
    IndexText seg := by
  intro hguard
  rw [atoiIndex, if_pos hguard] at h
  cases h

private theorem ne_dash_of_atoiIndex {seg : List Char} {i : Int} (h : atoiIndex seg = some i) :
    seg ≠ ['-'] := by
  rintro rfl
  cases h

/-! ### At the target -/

private theorem onElement_action (ch : Change) (xs : List Json) {seg : List Char} {n : Nat}
    (hdash : seg ≠ ['-']) (harr : arrayIndex seg = some n) :
    ch.action.onElement xs seg = (applyElems ch xs n []).toOption := by
  unfold Change.action Action.onElement applyElems
  cases ch.op with
  | add =>
    simp only [hdash, if_false, harr, Option.bind_some, Int.toNat_natCast]
    by_cases hn : n ≤ xs.length
    · rw [if_pos hn, if_neg (by omega)]
      rfl
    · rw [if_neg hn, if_pos (by omega)]
      rfl
  | change | remove =>
    simp only [harr, Option.bind_some, Int.toNat_natCast]
    by_cases hn : n < xs.length
    · rw [if_pos hn, if_neg (by omega)]
      rfl
    · rw [if_neg hn, if_pos (by omega)]
      rfl

private theorem arrayIndex_of_onElement {act : Action} {xs : List Json} {seg : List Char}
    (hdash : seg ≠ ['-']) (h : (act.onElement xs seg).isSome = true) :
    ∃ n, arrayIndex seg = some n ∧ n ≤ xs.length := by
  unfold Action.onElement at h
  cases harr : arrayIndex seg with
  | none => cases act <;> simp [hdash, harr] at h
  | some n =>
    refine ⟨n, rfl, ?_⟩
    by_contra hn
    have hlt : ¬n < xs.length := fun hlt => hn hlt.le
    cases act <;> simp [hdash, harr, hn, hlt] at h

/-- At a member, the operation does what the change does, except that it does not change what is not
there. -/
theorem onMember_action (ch : Change) (entry : Option Json) : ch.action.onMember entry =
    if ch.op = .change ∧ entry = none then none else (applyEntry ch entry []).toOption := by
  unfold Change.action applyEntry
  cases ch.op <;> cases entry <;> rfl

/-! ### One step -/

section

variable {ch : Change} {v v' : Json} {rest : List PathSeg}

private theorem exists_obj_of_applyStep {name : String}
    (h : applyStep ch v (.key name :: rest) = .ok v') : ∃ m, v = .obj m := by
  cases v with
  | obj m => exact ⟨m, rfl⟩
  | null | bool | num | str | arr => cases h

private theorem exists_arr_of_applyStep {i : Int} (h : applyStep ch v (.index i :: rest) = .ok v') :
    ∃ xs, v = .arr xs := by
  cases v with
  | arr xs => exact ⟨xs, rfl⟩
  | null | bool | num | str | obj => cases h

private theorem applyStep_below_obj {m : Fields} {name : String} {s : PathSeg}
    (h : applyStep ch (.obj m) (.key name :: s :: rest) = .ok v') :
    ∃ child x, m.lookup name = some child ∧ applyStep ch child (s :: rest) = .ok x ∧
      v' = .obj (insert name x m) := by
  rw [applyStep_obj] at h
  cases hchild : m.lookup name with
  | none => simp [hchild, applyEntry, Except.map] at h
  | some child =>
    cases hx : applyStep ch child (s :: rest) with
    | error e => simp [hchild, applyEntry, hx, Except.map] at h
    | ok x =>
      simp only [hchild, applyEntry, hx, Except.map, Except.ok.injEq] at h
      exact ⟨child, x, rfl, hx, h.symm⟩

private theorem applyStep_below_arr {xs : List Json} {n : Nat} {s : PathSeg}
    (h : applyStep ch (.arr xs) (.index n :: s :: rest) = .ok v') :
    ∃ child x, xs[n]? = some child ∧ applyStep ch child (s :: rest) = .ok x ∧
      v' = .arr (xs.set n x) := by
  rw [applyStep_arr] at h
  simp only [applyElems, Int.toNat_natCast] at h
  split_ifs at h with hn
  · cases h
  · have hchild : xs[n]? = some (xs.getD n .null) := by
      have hlt : n < xs.length := by omega
      simp [hlt]
    cases hx : applyStep ch (xs.getD n .null) (s :: rest) with
    | error e =>
      rw [hx] at h
      cases h
    | ok x =>
      rw [hx] at h
      cases h
      exact ⟨_, x, hchild, hx, rfl⟩

end

private theorem edit_of_applyStep {ch : Change} {segs : List (List Char)} (hne : segs ≠ [])
    {v v' : Json}
    (h : applyStep ch v (segs.map keyOrIndex) = .ok v') (htext : ∀ seg ∈ segs, IndexText seg)
    (hthere : ch.op = .change → (v.resolve (segs.map keyOrIndex)).isSome = true) :
    ch.action.edit v segs = some v' := by
  induction segs generalizing v v' with
  | nil => exact absurd rfl hne
  | cons seg rest ih =>
    obtain ⟨hseg, hrest⟩ := forall_mem_cons.mp htext
    rw [map_cons] at h hthere
    rw [Json.resolve_cons] at hthere
    obtain ⟨i, hidx, hread⟩ | ⟨-, hread⟩ := keyOrIndex_cases seg
    · rw [hread] at h hthere
      obtain ⟨xs, rfl⟩ := exists_arr_of_applyStep h
      obtain ⟨n, rfl, harr⟩ := arrayIndex_of_indexText hidx hseg
      cases rest with
      | nil =>
        rw [map_nil, applyStep_arr] at h
        rw [Action.edit, isEmpty_nil, if_pos rfl,
          onElement_action ch xs (ne_dash_of_atoiIndex hidx) harr]
        cases hys : applyElems ch xs n [] with
        | error e => simp [hys, Except.map] at h
        | ok ys =>
          rw [hys] at h
          cases h
          rfl
      | cons tok rest =>
        obtain ⟨child, x, hchild, hx, rfl⟩ := applyStep_below_arr h
        rw [Json.descend_index, hchild] at hthere
        have hedit := ih (cons_ne_nil tok rest) hx hrest hthere
        simp [Action.edit, harr, hchild, hedit]
    · rw [hread] at h hthere
      obtain ⟨m, rfl⟩ := exists_obj_of_applyStep h
      cases rest with
      | nil =>
        rw [map_nil, applyStep_obj] at h
        have hmember : ¬(ch.op = .change ∧ m.lookup (.ofList seg) = none) := by
          rintro ⟨hop, hnone⟩
          simpa [Json.descend, hnone] using hthere hop
        rw [Action.edit, isEmpty_nil, if_pos rfl, onMember_action, if_neg hmember]
        cases hentry : applyEntry ch (m.lookup (.ofList seg)) [] with
        | error e => simp [hentry, Except.map] at h
        | ok entry =>
          rw [hentry] at h
          cases h
          cases entry <;> rfl
      | cons tok rest =>
        obtain ⟨child, x, hchild, hx, rfl⟩ := applyStep_below_obj h
        rw [Json.descend, hchild] at hthere
        have hedit := ih (cons_ne_nil tok rest) hx hrest hthere
        simp [Action.edit, hchild, hedit]

private theorem exportable_of_edit {ch : Change} {segs : List (List Char)} {v v' : Json} (hv : v.WF)
    (h : applyStep ch v (segs.map keyOrIndex) = .ok v')
    (hedit : (ch.action.edit v segs).isSome = true) : (∀ seg ∈ segs, IndexText seg) ∧
      (ch.op = .change → (v.resolve (segs.map keyOrIndex)).isSome = true) := by
  induction segs generalizing v v' with
  | nil => exact ⟨fun seg hseg => absurd hseg not_mem_nil, fun _ => rfl⟩
  | cons seg rest ih =>
    rw [map_cons] at h
    rw [forall_mem_cons, map_cons, Json.resolve_cons]
    obtain ⟨i, hidx, hread⟩ | ⟨hidx, hread⟩ := keyOrIndex_cases seg
    · rw [hread] at h ⊢
      obtain ⟨xs, rfl⟩ := exists_arr_of_applyStep h
      obtain ⟨hlen, hxs⟩ := Json.wf_arr_iff.mp hv
      cases rest with
      | nil =>
        rw [Action.edit, isEmpty_nil, if_pos rfl, Option.isSome_map] at hedit
        -- an index that `int` cannot hold is behind the end of the array
        obtain ⟨n, harr, hn⟩ := arrayIndex_of_onElement (ne_dash_of_atoiIndex hidx) hedit
        have htext := indexText_of_arrayIndex harr (hn.trans_lt hlen)
        obtain ⟨n', rfl, -⟩ := arrayIndex_of_indexText hidx htext
        refine ⟨⟨htext, fun seg hseg => absurd hseg not_mem_nil⟩, fun hop => ?_⟩
        rw [map_nil, applyStep_arr] at h
        simp only [applyElems, hop] at h
        split_ifs at h with hin
        · cases h
        · have hlt : n' < xs.length := by omega
          simp [Json.descend_index, hlt]
      | cons tok rest =>
        rw [Action.edit, isEmpty_cons, if_neg Bool.false_ne_true] at hedit
        cases harr : arrayIndex seg with
        | none => simp [harr] at hedit
        | some n =>
          cases hchild : xs[n]? with
          | none => simp [harr, hchild] at hedit
          | some child =>
            have hn : n < xs.length := (List.getElem?_eq_some_iff.mp hchild).1
            have htext := indexText_of_arrayIndex harr (hn.trans hlen)
            obtain ⟨n', rfl, harr'⟩ := arrayIndex_of_indexText hidx htext
            cases Option.some.inj (harr.symm.trans harr')
            obtain ⟨child', x, hchild', hx, -⟩ := applyStep_below_arr h
            cases Option.some.inj (hchild.symm.trans hchild')
            rw [harr, Option.bind_some, hchild, Option.bind_some, Option.isSome_map] at hedit
            obtain ⟨hrest, hthere⟩ := ih (hxs child (mem_of_getElem? hchild)) hx hedit
            refine ⟨⟨htext, hrest⟩, ?_⟩
            rwa [Json.descend_index, hchild, Option.bind_some]
    · rw [hread] at h ⊢
      obtain ⟨m, rfl⟩ := exists_obj_of_applyStep h
      have htext := indexText_of_atoiIndex_eq_none hidx
      cases rest with
      | nil =>
        rw [Action.edit, isEmpty_nil, if_pos rfl, Option.isSome_map, onMember_action] at hedit
        refine ⟨⟨htext, fun seg hseg => absurd hseg not_mem_nil⟩, fun hop => ?_⟩
        cases hentry : m.lookup (.ofList seg) with
        | none => simp [hop, hentry] at hedit
        | some x => simp [Json.descend, hentry]
      | cons tok rest =>
        obtain ⟨child, x, hchild, hx, -⟩ := applyStep_below_obj h
        have hwf := (Json.wf_obj_iff.mp hv).2 _ (mem_of_lookup hchild)
        rw [Action.edit, isEmpty_cons, if_neg Bool.false_ne_true, hchild, Option.bind_some,
          Option.isSome_map] at hedit
        obtain ⟨hrest, hthere⟩ := ih hwf hx hedit
        refine ⟨⟨htext, hrest⟩, ?_⟩
        rwa [Json.descend, hchild, Option.bind_some]

/-! ### Whole lists -/

private theorem applyOp_of_applyOneChange {ch : Change} {v v' : Json} (hpath : '[' ∉ ch.path.toList)
    (hv : v.WF) (h : applyOneChange v ch = .ok v') : ∃ op, ch.toPatchOp = some op ∧
      (ch.Exportable v → applyOp v op = some v') ∧
      ((applyOp v op).isSome = true → ch.Exportable v) := by
  obtain ⟨op, hop, hact⟩ := applyOp_toPatchOp hpath
  refine ⟨op, hop, ?_⟩
  rw [hact, Change.Exportable]
  simp only [applyOneChange, parsePath_pieces hpath] at h
  cases hsegs : pieces ch.path with
  | nil =>
    -- the whole value: only a change, which replaces it
    simp only [hsegs, map_nil, applyAt] at h
    split_ifs at h with hchange
    cases h
    simp [Change.action, hchange, Action.edit, Action.onDocument]
  | cons seg rest =>
    rw [hsegs] at h
    exact ⟨fun hexp => edit_of_applyStep (cons_ne_nil seg rest) h hexp.1 hexp.2,
      exportable_of_edit hv h⟩

private theorem toJSONPatch_cons {ch : Change} {op : JSONPatchOp} (hop : ch.toPatchOp = some op)
    (chs : List Change) : toJSONPatch (ch :: chs) = (toJSONPatch chs).map (op :: ·) := by
  rw [toJSONPatch, mapM_cons, hop, ← toJSONPatch]
  cases toJSONPatch chs <;> rfl

/-- **Export.** Let `apply` accept a list of changes without selectors. Then the patch of the list
exists and gives the same result under RFC 6902, if and only if each change, when its turn comes,
writes its indices as such and changes only what is there. -/
theorem patch_agrees_iff {state result : Json} {chs : List Change}
    (hpaths : ∀ ch ∈ chs, '[' ∉ ch.path.toList)
    (hwf : ∀ n v, apply state (chs.take n) = .ok v → v.WF) (happly : apply state chs = .ok result) :
    (∃ patch, toJSONPatch chs = some patch ∧ applyPatch state patch = some result) ↔
      Exportable state chs := by
  induction chs generalizing state with
  | nil =>
    cases happly
    exact ⟨fun _ => trivial, fun _ => ⟨[], rfl, rfl⟩⟩
  | cons ch chs ih =>
    obtain ⟨hpath, hrest⟩ := forall_mem_cons.mp hpaths
    rw [apply] at happly
    cases hstep : applyOneChange state ch with
    | error e => simp [hstep] at happly
    | ok v =>
      simp only [hstep] at happly
      have hwf' : ∀ n u, apply v (chs.take n) = .ok u → u.WF := by
        intro n u hu
        refine hwf (n + 1) u ?_
        rw [take_succ_cons, apply, hstep]
        exact hu
      obtain ⟨op, hop, hagree, hexp⟩ := applyOp_of_applyOneChange hpath (hwf 0 state rfl) hstep
      have hiff := ih hrest hwf' happly
      constructor
      · rintro ⟨patch, hpatch, hresult⟩
        rw [toJSONPatch_cons hop, Option.map_eq_some_iff] at hpatch
        obtain ⟨rest, hrest, rfl⟩ := hpatch
        rw [applyPatch, foldlM_cons] at hresult
        obtain ⟨u, hu, hresult⟩ := Option.bind_eq_some_iff.mp hresult
        have hch := hexp (Option.isSome_of_eq_some hu)
        refine ⟨hch, fun v' hv' => ?_⟩
        rw [hstep] at hv'
        cases hv'
        cases Option.some.inj (hu.symm.trans (hagree hch))
        exact hiff.mp ⟨rest, hrest, hresult⟩
      · rintro ⟨hch, hchs⟩
        obtain ⟨patch, hpatch, hresult⟩ := hiff.mpr (hchs v (by rw [hstep]; rfl))
        refine ⟨op :: patch, ?_, ?_⟩
        · rw [toJSONPatch_cons hop, hpatch, Option.map_some]
        · rw [applyPatch, foldlM_cons, hagree hch]
          exact hresult

/-- A status changes, a line is added in front and the one behind it goes. -/
theorem patch_agrees_iff_lines :
    let state := Json.obj [("lines", .arr [.str "a"]), ("status", .str "new")]
    let chs : List Change := [⟨"status", .change, .null, .str "paid"⟩,
      ⟨"lines.0", .add, .null, .str "b"⟩, ⟨"lines.1", .remove, .null, .null⟩]
    ∃ patch, toJSONPatch chs = some patch ∧ applyPatch state patch =
      some (.obj [("lines", .arr [.str "b"]), ("status", .str "paid")]) := by
  intro state chs
  refine (patch_agrees_iff ?_ ?_ ?_).mpr ?_
  · decide
  · intro n v hv
    have hall : ∀ k < 4, ∀ v ∈ (apply state (chs.take k)).toOption, v.WF := by decide +kernel
    rw [take_eq_take_min] at hv
    exact hall (min n chs.length) (Nat.lt_succ_of_le (Nat.min_le_right n 3)) v (by rw [hv]; rfl)
  · decide +kernel
  · decide +kernel

/-- The changes that the rules of a patch refuse: a member that changes and is not there, an index
with a leading zero, and digits that wrap around. -/
theorem lax_changes_not_exported :
    let state := Json.obj [("lines", .arr [.str "a"])]
    let missing : List Change := [⟨"status", .change, .null, .str "paid"⟩]
    let zeros : List Change := [⟨"lines.00", .change, .null, .str "b"⟩]
    let wraps : List Change := [⟨"lines.18446744073709551616", .change, .null, .str "b"⟩]
    apply state missing = .ok (.obj [("lines", .arr [.str "a"]), ("status", .str "paid")]) ∧
      (toJSONPatch missing).bind (applyPatch state) = none ∧
      apply state zeros = .ok (.obj [("lines", .arr [.str "b"])]) ∧
      (toJSONPatch zeros).bind (applyPatch state) = none ∧
      apply state wraps = .ok (.obj [("lines", .arr [.str "b"])]) ∧
      (toJSONPatch wraps).bind (applyPatch state) = none := by
  decide +kernel

end Letopis
