import Letopis.Diff.LeavesInput

/-!
# A change list handed to `Apply`

The caller of `Apply` keeps the change list and stores it afterwards. `Handed a chs chs'` says that
a list which read as `chs` may read as `chs'` after it was applied to `a`, wherever state and list
are in memory. A list that keeps off the values it puts in is handed back as it was
(`handed_iff`).
-/

namespace Letopis.Mutable

open List

/-- The list read as `chs` before it was applied to `a`, and reads as `chs'` afterwards. -/
def Handed (a : Json) (chs chs' : List Change) : Prop :=
  ∃ (grow : Nat → Nat) (h : Heap) (state : Ref) (rcs : List RefChange),
    Reads h a state ∧ List.Forall₂ (ReadsChange h) chs rcs ∧
      ∃ n, ∀ fuel ≥ n, ∃ h' result, apply grow fuel h state rcs = some (.ok (h', result)) ∧
        List.Forall₂ (ReadsChange h') chs' rcs

/-! ### Reading is unambiguous -/

variable {h h' : Heap}

theorem Reads.exists_arr {v : Json} {a n : Nat} (hv : Reads h v (.arr a n)) :
    ∃ xs rs spare, v = .arr xs ∧ n = xs.length ∧ h[a]? = some (.arr (rs ++ spare)) ∧
      rs.length = xs.length ∧
      ∀ (i : Nat) x r, xs[i]? = some x → rs[i]? = some r → Reads h x r := by
  generalize hr : Ref.arr a n = r at hv
  cases hv with
  | null | bool | num | str | obj => cases hr
  | arr hcell hlen helems =>
    cases hr
    exact ⟨_, _, _, rfl, rfl, hcell, hlen, helems⟩

/-- A reference has one value. -/
theorem Reads.unique {v w : Json} {r : Ref} (hv : Reads h v r) (hw : Reads h w r) : v = w := by
  induction hv generalizing w with
  | null | bool | num | str =>
    cases hw
    rfl
  | @arr a xs rs spare hcell hlen _ ih =>
    obtain ⟨ys, rs', spare', rfl, hlen', hcell', hrs', hys⟩ := hw.exists_arr
    have hslots : rs ++ spare = rs' ++ spare' := by simpa [hcell] using hcell'
    obtain ⟨rfl, -⟩ := append_inj hslots (by omega)
    refine congrArg Json.arr (ext_getElem hlen' fun i hi hi' => ?_)
    obtain ⟨r, hr⟩ : ∃ r, rs[i]? = some r := ⟨_, getElem?_eq_getElem (hlen ▸ hi)⟩
    exact ih i _ r (getElem?_eq_getElem hi) hr
      (hys i _ r (getElem?_eq_getElem hi') hr)
  | @obj a kvs m hcell hkeys _ ih =>
    cases hw with
    | @obj _ kvs' m' hcell' hkeys' hentries' =>
      obtain rfl : m = m' := by simpa [hcell] using hcell'
      have hfst := hkeys.symm.trans hkeys'
      have hlen : m.length = kvs.length := by simpa using congrArg List.length hkeys
      have hlen' : kvs.length = kvs'.length := by simpa using congrArg List.length hfst
      refine congrArg Json.obj (ext_getElem hlen' fun i hi hi' => ?_)
      obtain ⟨q, hq⟩ : ∃ q, m[i]? = some q := ⟨_, getElem?_eq_getElem (hlen ▸ hi)⟩
      have hkey : kvs[i].1 = kvs'[i].1 := by
        simpa [hi, hi'] using congrArg (fun l : List String => l[i]?) hfst
      exact Prod.ext hkey (ih i _ q (getElem?_eq_getElem hi) hq
        (hentries' i _ q (getElem?_eq_getElem hi') hq))

theorem ReadsChange.unique {ch ch' : Change} {rc : RefChange} (hr : ReadsChange h ch rc)
    (hr' : ReadsChange h ch' rc) : ch = ch' := by
  obtain ⟨path, op, old, new⟩ := ch
  obtain ⟨path', op', old', new'⟩ := ch'
  obtain rfl : path = path' := hr.path.symm.trans hr'.path
  obtain rfl : op = op' := hr.op.symm.trans hr'.op
  obtain rfl : old = old' := hr.old.unique hr'.old
  obtain rfl : new = new' := hr.new.unique hr'.new
  rfl

private theorem readsChanges_unique {chs chs' : List Change} {rcs : List RefChange}
    (hr : List.Forall₂ (ReadsChange h) chs rcs) (hr' : List.Forall₂ (ReadsChange h) chs' rcs) :
    chs = chs' := by
  induction hr generalizing chs' with
  | nil =>
    cases hr'
    rfl
  | cons hch _ ih =>
    cases hr' with
    | cons hch' hchs' => rw [hch.unique hch', ih hchs']

/-! ### Every value can be placed -/

/-- The second heap has the cells of the first, and maybe more. -/
structure Grows (h h' : Heap) : Prop where
  kept : Extends h h'
  le : h.length ≤ h'.length

theorem Grows.rfl : Grows h h := ⟨fun _ _ => Eq.refl _, le_rfl⟩

theorem Grows.trans {h'' : Heap} (h₁ : Grows h h') (h₂ : Grows h' h'') : Grows h h'' :=
  ⟨h₁.kept.trans h₂.kept h₁.le, h₁.le.trans h₂.le⟩

theorem Grows.concat (hg : Grows h h') (c : Cell) : Grows h (h' ++ [c]) :=
  hg.trans ⟨fun _ hb => getElem?_append_left hb, by simp⟩

private theorem exists_placed_all {α β : Type} {R : Heap → α → β → Prop}
    (hmono : ∀ h h' x r, Extends h h' → R h x r → R h' x r) (xs : List α)
    (hone : ∀ x ∈ xs, ∀ h, ∃ h' r, Grows h h' ∧ R h' x r) (h : Heap) :
    ∃ h' rs, Grows h h' ∧ List.Forall₂ (R h') xs rs := by
  induction xs generalizing h with
  | nil => exact ⟨h, [], .rfl, .nil⟩
  | cons x xs ih =>
    obtain ⟨hx, hxs⟩ := forall_mem_cons.mp hone
    obtain ⟨h₁, r, hg, hr⟩ := hx h
    obtain ⟨h', rs, hg', hrs⟩ := ih hxs h₁
    exact ⟨h', r :: rs, hg.trans hg', .cons (hmono _ _ _ _ hg'.kept hr) hrs⟩

private theorem rel_of_getElem? {α β : Type} {R : α → β → Prop} {xs : List α} {rs : List β}
    (hall : List.Forall₂ R xs rs) (i : Nat) (x : α) (r : β) (hx : xs[i]? = some x)
    (hr : rs[i]? = some r) : R x r := by
  induction hall generalizing i with
  | nil => cases hx
  | cons hxr _ ih =>
    cases i with
    | zero =>
      cases hx
      cases hr
      exact hxr
    | succ i => exact ih i hx hr

private theorem exists_reads (j : Json) (h : Heap) : ∃ h' r, Grows h h' ∧ Reads h' j r := by
  induction j using Json.induction generalizing h with
  | null => exact ⟨h, .null, .rfl, .null⟩
  | bool b => exact ⟨h, .bool b, .rfl, .bool b⟩
  | num n => exact ⟨h, .num n, .rfl, .num n⟩
  | str s => exact ⟨h, .str s, .rfl, .str s⟩
  | arr xs ih =>
    obtain ⟨h', rs, hg, hrs⟩ := exists_placed_all (R := Reads) (fun _ _ _ _ he hr => hr.mono he)
      xs ih h
    have hcell : (h' ++ [.arr (rs ++ [])])[h'.length]? = some (.arr (rs ++ [])) := by simp
    refine ⟨_, .arr h'.length xs.length, hg.concat (.arr (rs ++ [])), ?_⟩
    refine .arr hcell hrs.length_eq.symm fun i x r hx hr => ?_
    exact (rel_of_getElem? hrs i x r hx hr).mono (Grows.rfl.concat _).kept
  | obj kvs ih =>
    obtain ⟨h', m, hg, hm⟩ := exists_placed_all (fun _ _ _ _ he hr => hr.imp_right (·.mono he))
      (R := fun h (p : String × Json) (q : String × Ref) => q.1 = p.1 ∧ Reads h p.2 q.2) kvs
      (fun p hp h => by
        obtain ⟨h', r, hg, hr⟩ := ih p hp h
        exact ⟨h', (p.1, r), hg, rfl, hr⟩) h
    have hkeys : m.map Prod.fst = kvs.map Prod.fst := by
      clear ih
      induction hm with
      | nil => rfl
      | cons hpq _ ih => rw [map_cons, map_cons, hpq.1, ih]
    refine ⟨_, .obj h'.length, hg.concat (.obj m), .obj (m := m) (by simp) hkeys ?_⟩
    exact fun i p q hp hq => (rel_of_getElem? hm i p q hp hq).2.mono (Grows.rfl.concat _).kept

private theorem exists_readsChanges (chs : List Change) (h : Heap) :
    ∃ h' rcs, Grows h h' ∧ List.Forall₂ (ReadsChange h') chs rcs := by
  refine exists_placed_all (fun _ _ _ _ he hr => hr.mono he) chs (fun ch _ h => ?_) h
  obtain ⟨h₁, old, hg, hold⟩ := exists_reads ch.old h
  obtain ⟨h', new, hg', hnew⟩ := exists_reads ch.new h₁
  exact ⟨h', ⟨ch.path, ch.op, old, new⟩, hg.trans hg', rfl, rfl, hold.mono hg'.kept, hnew⟩

/-- **A list that keeps off its own values is handed back as it was.** -/
theorem handed_iff {a : Json} {chs chs' : List Change} (ha : a.WF) (hkeeps : KeepsOff a chs) :
    Handed a chs chs' ↔ chs' = chs := by
  obtain ⟨u, hu⟩ := Option.isSome_iff_exists.mp hkeeps
  constructor
  · rintro ⟨grow, h, state, rcs, hstate, hchs, n, hrun⟩
    obtain ⟨h₁, t, hok, ht⟩ := apply_edited grow ha hstate hchs hu (le_max_right n _)
    obtain ⟨h₂, result, hok', hchs'⟩ := hrun _ (le_max_left n (sizeOf a))
    rw [hok, Option.some.injEq, Except.ok.injEq, Prod.mk.injEq] at hok'
    rw [← hok'.1] at hchs'
    exact readsChanges_unique hchs' (hchs.imp fun _ _ hr => hr.mono ht.kept)
  · rintro rfl
    obtain ⟨h₁, state, -, hstate⟩ := exists_reads a []
    obtain ⟨h, rcs, hg, hchs⟩ := exists_readsChanges chs' h₁
    have hstate' := hstate.mono hg.kept
    refine ⟨id, h, state, rcs, hstate', hchs, sizeOf a, fun fuel hfuel => ?_⟩
    obtain ⟨h', t, hok, ht⟩ := apply_edited id ha hstate' hchs hu hfuel
    exact ⟨h', t.ref, hok, hchs.imp fun _ _ hr => hr.mono ht.kept⟩

end Letopis.Mutable
