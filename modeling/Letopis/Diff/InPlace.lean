import Mathlib.Data.List.Flatten
import Mathlib.Data.List.Nodup
import Letopis.Diff.Heap
import Letopis.Diff.Sharing

/-!
# Writes to own cells

The edited value as `Apply` has it in the heap, with the addresses of its own containers, all
different (`Held`). A change that keeps off lent values writes to one of them or to a new cell, and
every other cell stays as it is (`Steps`, `Owned.Step.inPlace`).
-/

namespace Letopis.Mutable

open SortedAssoc List

/-! ### Values in the heap -/

/-- A reference reads as a value. -/
inductive Reads (h : Heap) : Json → Ref → Prop where
  | null : Reads h .null .null
  | bool (b) : Reads h (.bool b) (.bool b)
  | num (n) : Reads h (.num n) (.num n)
  | str (s) : Reads h (.str s) (.str s)
  | arr {a : Nat} {xs : List Json} {rs spare : List Ref} (hcell : h[a]? = some (.arr (rs ++ spare)))
    (hlen : rs.length = xs.length)
    (helems : ∀ (i : Nat) x r, xs[i]? = some x → rs[i]? = some r → Reads h x r) :
    Reads h (.arr xs) (.arr a xs.length)
  | obj {a : Nat} {kvs : Fields} {m : List (String × Ref)} (hcell : h[a]? = some (.obj m))
    (hkeys : m.map Prod.fst = kvs.map Prod.fst)
    (hentries : ∀ (i : Nat) p q, kvs[i]? = some p → m[i]? = some q → Reads h p.2 q.2) :
    Reads h (.obj kvs) (.obj a)

/-- Every cell of the first heap is there in the second, with the same content. -/
def Extends (h h' : Heap) : Prop := ∀ a < h.length, h'[a]? = h[a]?

variable {h : Heap} {t : Placed}

theorem Extends.get {h' : Heap} (he : Extends h h') {a : Nat} {c : Cell} (hc : h[a]? = some c) :
    h'[a]? = some c := by
  rw [he a (List.getElem?_eq_some_iff.mp hc).1, hc]

theorem Extends.trans {h' h'' : Heap} (h₁ : Extends h h') (h₂ : Extends h' h'')
    (hle : h.length ≤ h'.length) : Extends h h'' := fun a ha => by
  rw [h₂ a (by omega), h₁ a ha]

theorem Reads.mono {h' : Heap} (he : Extends h h') {v : Json} {r : Ref} (hr : Reads h v r) :
    Reads h' v r := by
  induction hr with
  | null => exact .null
  | bool b => exact .bool b
  | num n => exact .num n
  | str s => exact .str s
  | arr hcell hlen _ ih => exact .arr (he.get hcell) hlen ih
  | obj hcell hkeys _ ih => exact .obj (he.get hcell) hkeys ih

/-! ### The edited value and its addresses -/

/-- An edited value with the addresses of its own containers and the references to what it is
lent. -/
abbrev Placed : Type := Owned Nat Ref

namespace Owned

/-- The reference to the value. -/
def ref : Placed → Ref
  | .lent r _ => r
  | .arr a xs => .arr a xs.length
  | .obj a _ => .obj a

mutual

/-- The addresses of the own containers. -/
def addrs : Placed → List Nat
  | .lent _ _ => []
  | .arr a xs => a :: addrsAll xs
  | .obj a kvs => a :: addrsEntries kvs

/-- The addresses below the elements. -/
def addrsAll : List Placed → List Nat
  | [] => []
  | x :: xs => x.addrs ++ addrsAll xs

/-- The addresses below the entries. -/
def addrsEntries : List (String × Placed) → List Nat
  | [] => []
  | (_, x) :: kvs => x.addrs ++ addrsEntries kvs

end

private theorem addrsAll_eq (xs : List Placed) : addrsAll xs = xs.flatMap addrs := by
  induction xs with
  | nil => rfl
  | cons x xs ih => rw [addrsAll, ih, flatMap_cons]

private theorem addrsEntries_eq (kvs : List (String × Placed)) :
    addrsEntries kvs = (kvs.map Prod.snd).flatMap addrs := by
  induction kvs with
  | nil => rfl
  | cons p kvs ih => rw [addrsEntries, ih, map_cons, flatMap_cons]

theorem addrs_arr (a : Nat) (xs : List Placed) : (arr a xs).addrs = a :: xs.flatMap addrs := by
  rw [addrs, addrsAll_eq]

theorem addrs_obj (a : Nat) (kvs : List (String × Placed)) :
    (obj a kvs).addrs = a :: (kvs.map Prod.snd).flatMap addrs := by
  rw [addrs, addrsEntries_eq]

end Owned

/-- The heap holds the edited value: own containers are cells beyond the first heap, with exactly
the elements or entries of the value; what is lent reads the same in the first heap. -/
inductive Held (h₀ h : Heap) : Placed → Prop where
  | lent {r : Ref} {v : Json} (hr : Reads h₀ v r) : Held h₀ h (.lent r v)
  | arr {a : Nat} {xs : List Placed} {spare : List Ref} (ha : h₀.length ≤ a)
    (hcell : h[a]? = some (.arr (xs.map Owned.ref ++ spare))) (hxs : ∀ x ∈ xs, Held h₀ h x) :
    Held h₀ h (.arr a xs)
  | obj {a : Nat} {kvs : List (String × Placed)} (ha : h₀.length ≤ a)
    (hcell : h[a]? = some (.obj (mapValues Owned.ref kvs))) (hs : Sorted kvs)
    (hkvs : ∀ p ∈ kvs, Held h₀ h p.2) : Held h₀ h (.obj a kvs)

theorem Held.bounds {h₀ : Heap} (ht : Held h₀ h t) :
    ∀ b ∈ t.addrs, h₀.length ≤ b ∧ b < h.length := by
  induction ht with
  | lent => exact fun b hb => absurd hb not_mem_nil
  | arr ha hcell _ ih =>
    intro b hb
    rw [Owned.addrs_arr, mem_cons, mem_flatMap] at hb
    obtain rfl | ⟨x, hx, hb⟩ := hb
    · exact ⟨ha, (List.getElem?_eq_some_iff.mp hcell).1⟩
    · exact ih x hx b hb
  | obj ha hcell _ _ ih =>
    intro b hb
    rw [Owned.addrs_obj, mem_cons, mem_flatMap] at hb
    obtain rfl | ⟨x, hx, hb⟩ := hb
    · exact ⟨ha, (List.getElem?_eq_some_iff.mp hcell).1⟩
    · obtain ⟨p, hp, rfl⟩ := mem_map.mp hx
      exact ih p hp b hb

theorem Held.frame {h₀ h' : Heap} (ht : Held h₀ h t) (hsame : ∀ b ∈ t.addrs, h'[b]? = h[b]?) :
    Held h₀ h' t := by
  induction ht with
  | lent hr => exact .lent hr
  | @arr a xs spare ha hcell _ ih =>
    rw [Owned.addrs_arr] at hsame
    obtain ⟨hself, hbelow⟩ := forall_mem_cons.mp hsame
    refine .arr ha (hself.trans hcell) fun x hx => ih x hx fun b hb => ?_
    exact hbelow b (mem_flatMap.mpr ⟨x, hx, hb⟩)
  | @obj a kvs ha hcell hs _ ih =>
    rw [Owned.addrs_obj] at hsame
    obtain ⟨hself, hbelow⟩ := forall_mem_cons.mp hsame
    refine .obj ha (hself.trans hcell) hs fun p hp => ih p hp fun b hb => ?_
    exact hbelow b (mem_flatMap.mpr ⟨p.2, mem_map_of_mem hp, hb⟩)

theorem Held.reads {h₀ : Heap} (he : Extends h₀ h) (ht : Held h₀ h t) : Reads h t.value t.ref := by
  induction ht with
  | lent hr => exact hr.mono he
  | @arr a xs spare ha hcell _ ih =>
    rw [Owned.value, Owned.values_eq_map, Owned.ref, ← length_map (f := Owned.value)]
    refine .arr hcell (by simp) fun i x r hx hr => ?_
    obtain ⟨t, ht, rfl⟩ := Option.map_eq_some_iff.mp (getElem?_map ▸ hx)
    rw [getElem?_map, ht] at hr
    cases hr
    exact ih t (mem_of_getElem? ht)
  | @obj a kvs ha hcell hs _ ih =>
    rw [Owned.value, Owned.entryValues_eq, Owned.ref]
    refine .obj hcell (by rw [map_fst_mapValues, map_fst_mapValues]) fun i p q hp hq => ?_
    obtain ⟨t, ht, rfl⟩ := Option.map_eq_some_iff.mp (getElem?_map ▸ hp)
    rw [mapValues, getElem?_map, ht] at hq
    cases hq
    exact ih t (mem_of_getElem? ht)

private theorem keyText_of_reads {v : Json} {r : Ref} (hr : Reads h v r) :
    keyText r = keyValString v := by
  cases hr <;> rfl

private theorem lookup_of_reads {kvs : Fields} {m : List (String × Ref)}
    (hkeys : m.map Prod.fst = kvs.map Prod.fst)
    (hentries : ∀ (i : Nat) p q, kvs[i]? = some p → m[i]? = some q → Reads h p.2 q.2) (k : String) :
    (m.lookup k).bind keyText = (kvs.lookup k).bind keyValString := by
  induction kvs generalizing m with
  | nil =>
    obtain rfl : m = [] := by simpa using hkeys
    rfl
  | cons p kvs ih =>
    cases m with
    | nil => cases hkeys
    | cons q m =>
      obtain ⟨hkey, hkeys⟩ := List.cons.inj hkeys
      rw [lookup_cons_eq, lookup_cons_eq, hkey]
      split_ifs
      · exact keyText_of_reads (hentries 0 p q rfl rfl)
      · exact ih hkeys fun i p q hp hq => hentries (i + 1) p q hp hq

private theorem elemText_of_reads {v : Json} {r : Ref} (hr : Reads h v r) (kf : String) :
    elemText h kf r = elemKey kf v := by
  cases hr with
  | null | bool | num | str | arr => rfl
  | obj hcell hkeys hentries =>
    simp only [elemText, hcell, elemKey]
    exact lookup_of_reads hkeys hentries kf

private theorem indexOfKey_of_held {h₀ : Heap} (he : Extends h₀ h) {xs : List Placed}
    (hxs : ∀ x ∈ xs, Held h₀ h x) (kf kv : String) :
    indexOfKey h (xs.map Owned.ref) kf kv = Letopis.indexOfKey (xs.map Owned.value) kf kv := by
  rw [indexOfKey, Letopis.indexOfKey, findIdx?_map, findIdx?_map]
  induction xs with
  | nil => rfl
  | cons x xs ih =>
    obtain ⟨hx, hxs⟩ := forall_mem_cons.mp hxs
    rw [findIdx?_cons, findIdx?_cons, ih hxs]
    simp only [Function.comp, elemText_of_reads (hx.reads he)]

/-! ### One write -/

/-- What a step does: the new value is held, with its addresses apart, and the cells outside the
old value are as they were. -/
structure Steps (h₀ h h' : Heap) (t t' : Placed) : Prop where
  held : Held h₀ h' t'
  nodup : t'.addrs.Nodup
  frame : ∀ b < h.length, b ∉ t.addrs → h'[b]? = h[b]?
  grows : h.length ≤ h'.length
  fresh : ∀ b ∈ t'.addrs, b ∈ t.addrs ∨ h.length ≤ b

/-- A list without repetition in the middle of others, replaced by one that has only old and new
numbers. -/
theorem nodup_replace {l m c c' : List Nat} {n : Nat} (h : (l ++ c ++ m).Nodup) (hc' : c'.Nodup)
    (hfresh : ∀ b ∈ c', b ∈ c ∨ n ≤ b) (hl : ∀ b ∈ l, b < n) (hm : ∀ b ∈ m, b < n) :
    (l ++ c' ++ m).Nodup := by
  obtain ⟨hlc, hmn, hlcm⟩ := nodup_append.mp h
  obtain ⟨hln, -, hlc⟩ := nodup_append.mp hlc
  refine nodup_append.mpr ⟨nodup_append.mpr ⟨hln, hc', fun b hb d hd => ?_⟩, hmn, ?_⟩
  · rcases hfresh d hd with hd | hd
    · exact hlc b hb d hd
    · have := hl b hb
      omega
  · intro b hb d hd
    rcases mem_append.mp hb with hb | hb
    · exact hlcm b (mem_append_left c hb) d hd
    · rcases hfresh b hb with hb | hb
      · exact hlcm b (mem_append_right l hb) d hd
      · have := hm d hd
        omega

section Children

variable {h₀ h h₁ h' : Heap} {a : Nat}

/-- What a step does to a container and its children, apart from the cell of the container. -/
structure StepsBelow (h₀ h h' : Heap) (a a' : Nat) (ts ts' : List Placed) : Prop where
  held : ∀ x ∈ ts', Held h₀ h' x
  nodup : (a' :: ts'.flatMap Owned.addrs).Nodup
  frame : ∀ b < h.length, b ∉ a :: ts.flatMap Owned.addrs → h'[b]? = h[b]?
  fresh : ∀ b ∈ a' :: ts'.flatMap Owned.addrs, b ∈ a :: ts.flatMap Owned.addrs ∨ h.length ≤ b

theorem StepsBelow.arr {a' : Nat} {xs xs' : List Placed} {spare : List Ref}
    (hbelow : StepsBelow h₀ h h' a a' xs xs') (ha' : h₀.length ≤ a')
    (hcell : h'[a']? = some (.arr (xs'.map Owned.ref ++ spare))) (hgrows : h.length ≤ h'.length) :
    Steps h₀ h h' (.arr a xs) (.arr a' xs') := by
  refine ⟨.arr ha' hcell hbelow.held, ?_, ?_, hgrows, ?_⟩
  · exact Owned.addrs_arr a' xs' ▸ hbelow.nodup
  · exact Owned.addrs_arr a xs ▸ hbelow.frame
  · exact Owned.addrs_arr a xs ▸ Owned.addrs_arr a' xs' ▸ hbelow.fresh

theorem StepsBelow.obj {kvs kvs' : List (String × Placed)}
    (hbelow : StepsBelow h₀ h h' a a (kvs.map Prod.snd) (kvs'.map Prod.snd)) (ha : h₀.length ≤ a)
    (hcell : h'[a]? = some (.obj (mapValues Owned.ref kvs'))) (hs : Sorted kvs')
    (hgrows : h.length ≤ h'.length) : Steps h₀ h h' (.obj a kvs) (.obj a kvs') := by
  refine ⟨.obj ha hcell hs fun p hp => hbelow.held _ (mem_map_of_mem hp), ?_, ?_, hgrows, ?_⟩
  · exact Owned.addrs_obj a kvs' ▸ hbelow.nodup
  · exact Owned.addrs_obj a kvs ▸ hbelow.frame
  · exact Owned.addrs_obj a kvs ▸ Owned.addrs_obj a kvs' ▸ hbelow.fresh

private theorem addrs_lt {ts : List Placed} (hts : ∀ x ∈ ts, Held h₀ h x) :
    ∀ b ∈ ts.flatMap Owned.addrs, b < h.length := by
  intro b hb
  obtain ⟨x, hx, hb⟩ := mem_flatMap.mp hb
  exact ((hts x hx).bounds b hb).2

/-- A step below one child of the container at `a`, and then a write to that container. -/
theorem StepsBelow.into {l m : List Placed} {c c' : Placed}
    (hnodup : (a :: (l ++ c :: m).flatMap Owned.addrs).Nodup)
    (hheld : ∀ x ∈ l ++ c :: m, Held h₀ h x) (ha : a < h.length) (hstep : Steps h₀ h h₁ c c')
    (hother : ∀ b, b ≠ a → h'[b]? = h₁[b]?) :
    StepsBelow h₀ h h' a a (l ++ c :: m) (l ++ c' :: m) := by
  obtain ⟨hself, hbelow⟩ := nodup_cons.mp hnodup
  have hsplit (x : Placed) : (l ++ x :: m).flatMap Owned.addrs =
      l.flatMap Owned.addrs ++ x.addrs ++ m.flatMap Owned.addrs := by simp
  rw [hsplit] at hself hbelow
  have hbelow' := hbelow
  obtain ⟨hlc, -, hlcm⟩ := nodup_append.mp hbelow'
  obtain ⟨-, -, hdisj⟩ := nodup_append.mp hlc
  simp only [mem_append, not_or] at hself
  obtain ⟨⟨hal, hac⟩, ham⟩ := hself
  have hheldl : ∀ x ∈ l, Held h₀ h x := fun x hx => hheld x (mem_append_left _ hx)
  have hheldm : ∀ x ∈ m, Held h₀ h x := fun x hx => hheld x (by simp [hx])
  have hac' : a ∉ c'.addrs := fun hmem => by
    rcases hstep.fresh a hmem with hmem | hle
    · exact hac hmem
    · omega
  -- the cells of the other children are neither written below nor at the container
  have hsame : ∀ b < h.length, b ≠ a → b ∉ c.addrs → h'[b]? = h[b]? := fun b hb hne hnot => by
    rw [hother b hne, hstep.frame b hb hnot]
  refine ⟨fun x hx => ?_, ?_, fun b hb hmem => ?_, fun b hb => ?_⟩
  · rcases mem_append.mp hx with hx | hx
    · refine (hheldl x hx).frame fun b hb => ?_
      have hmem := mem_flatMap.mpr ⟨x, hx, hb⟩
      exact hsame b (addrs_lt hheldl b hmem) (ne_of_mem_of_not_mem hmem hal) fun hbc =>
        hdisj b hmem b hbc rfl
    · rcases mem_cons.mp hx with rfl | hx
      · exact hstep.held.frame fun b hb => hother b (ne_of_mem_of_not_mem hb hac')
      · refine (hheldm x hx).frame fun b hb => ?_
        have hmem := mem_flatMap.mpr ⟨x, hx, hb⟩
        exact hsame b (addrs_lt hheldm b hmem) (ne_of_mem_of_not_mem hmem ham) fun hbc =>
          hlcm b (mem_append_right _ hbc) b hmem rfl
  · rw [hsplit]
    refine nodup_cons.mpr ⟨?_, nodup_replace hbelow hstep.nodup hstep.fresh (addrs_lt hheldl)
      (addrs_lt hheldm)⟩
    simp only [mem_append, not_or]
    exact ⟨⟨hal, hac'⟩, ham⟩
  · simp only [hsplit, mem_cons, mem_append, not_or] at hmem
    exact hsame b hb hmem.1 hmem.2.1.2
  · simp only [hsplit, mem_cons, mem_append] at hb ⊢
    obtain rfl | (hb | hb) | hb := hb
    · exact .inl (.inl rfl)
    · exact .inl (.inr (.inl (.inl hb)))
    · exact (hstep.fresh b hb).imp_left fun hb => .inr (.inl (.inr hb))
    · exact .inl (.inr (.inr hb))

/-- A write to the container at `a` that puts in lent values only, or its move to a new cell. -/
theorem StepsBelow.leaf {a' : Nat} {ts ts' : List Placed}
    (hnodup : (a :: ts.flatMap Owned.addrs).Nodup) (hheld : ∀ x ∈ ts, Held h₀ h x)
    (hts' : ∀ x ∈ ts', x ∈ ts ∨ ∃ r v, x = .lent r v ∧ Reads h₀ v r)
    (hsub : (ts'.flatMap Owned.addrs).Sublist (ts.flatMap Owned.addrs))
    (ha' : a' = a ∨ h.length ≤ a') (hother : ∀ b < h.length, b ≠ a → h'[b]? = h[b]?) :
    StepsBelow h₀ h h' a a' ts ts' := by
  obtain ⟨hself, hbelow⟩ := nodup_cons.mp hnodup
  have hlt := addrs_lt hheld
  refine ⟨fun x hx => ?_, nodup_cons.mpr ⟨fun hmem => ?_, hbelow.sublist hsub⟩, ?_, ?_⟩
  · obtain hx | ⟨r, v, rfl, hr⟩ := hts' x hx
    · refine (hheld x hx).frame fun b hb => ?_
      have hmem := mem_flatMap.mpr ⟨x, hx, hb⟩
      exact hother b (hlt b hmem) (ne_of_mem_of_not_mem hmem hself)
    · exact .lent hr
  · rcases ha' with rfl | ha'
    · exact hself (hsub.subset hmem)
    · have := hlt a' (hsub.subset hmem)
      omega
  · intro b hb hmem
    exact hother b hb fun heq => hmem (heq ▸ mem_cons_self)
  · intro b hb
    rcases mem_cons.mp hb with rfl | hb
    · rcases ha' with rfl | ha'
      · exact .inl mem_cons_self
      · exact .inr ha'
    · exact .inl (mem_cons_of_mem a (hsub.subset hb))

private theorem steps_obj {kvs kvs' : List (String × Placed)} (ht : Held h₀ h (.obj a kvs))
    (hnodup : (Owned.obj a kvs : Placed).addrs.Nodup) (hs : Sorted kvs')
    (hkvs' : ∀ p ∈ kvs', p.2 ∈ kvs.map Prod.snd ∨ ∃ r v, p.2 = .lent r v ∧ Reads h₀ v r)
    (hsub : ((kvs'.map Prod.snd).flatMap Owned.addrs).Sublist
      ((kvs.map Prod.snd).flatMap Owned.addrs)) :
    Steps h₀ h (h.set a (.obj (mapValues Owned.ref kvs'))) (.obj a kvs) (.obj a kvs') := by
  rw [Owned.addrs_obj] at hnodup
  cases ht with
  | obj ha hcell _ hheld =>
    refine StepsBelow.obj ?_ ha (getElem?_set_self (List.getElem?_eq_some_iff.mp hcell).1) hs
      (by simp)
    exact .leaf hnodup (forall_mem_map.mpr hheld) (forall_mem_map.mpr hkvs') hsub
      (.inl rfl) fun b _ hne => getElem?_set_ne (Ne.symm hne)

/-- The container at `a` is an array whose elements are written, or that moves to a new cell. -/
theorem steps_arr {a' : Nat} {xs xs' : List Placed} {spare : List Ref}
    (ht : Held h₀ h (.arr a xs)) (hnodup : (Owned.arr a xs : Placed).addrs.Nodup)
    (hxs' : ∀ x ∈ xs', x ∈ xs ∨ ∃ r v, x = .lent r v ∧ Reads h₀ v r)
    (hsub : (xs'.flatMap Owned.addrs).Sublist (xs.flatMap Owned.addrs))
    (ha' : a' = a ∨ h.length ≤ a') (hcell : h'[a']? = some (.arr (xs'.map Owned.ref ++ spare)))
    (hother : ∀ b < h.length, b ≠ a → h'[b]? = h[b]?) (hgrows : h.length ≤ h'.length) :
    Steps h₀ h h' (.arr a xs) (.arr a' xs') := by
  obtain ⟨ha, hlt⟩ := ht.bounds a mem_cons_self
  rw [Owned.addrs_arr] at hnodup
  cases ht with
  | arr _ _ hheld =>
    exact (StepsBelow.leaf hnodup hheld hxs' hsub ha' hother).arr (by omega) hcell hgrows

private theorem steps_intoKey {l m : List (String × Placed)} {k : String} {c c' : Placed}
    (ht : Held h₀ h (.obj a (l ++ (k, c) :: m)))
    (hnodup : (Owned.obj a (l ++ (k, c) :: m) : Placed).addrs.Nodup)
    (hstep : Steps h₀ h h₁ c c') :
    Steps h₀ h (h₁.set a (.obj (mapValues Owned.ref (l ++ (k, c') :: m))))
      (.obj a (l ++ (k, c) :: m)) (.obj a (l ++ (k, c') :: m)) := by
  obtain ⟨ha, hlt⟩ := ht.bounds a mem_cons_self
  have hsnd (x : Placed) : (l ++ (k, x) :: m).map Prod.snd =
      l.map Prod.snd ++ x :: m.map Prod.snd := by simp
  cases ht with
  | obj _ _ hs hheld =>
    rw [Owned.addrs_obj, hsnd] at hnodup
    have hchildren : ∀ x ∈ l.map Prod.snd ++ c :: m.map Prod.snd, Held h₀ h x :=
      hsnd c ▸ forall_mem_map.mpr hheld
    have hs' : Sorted (l ++ (k, c') :: m) := by
      rw [sorted_iff_keys] at hs ⊢
      simpa using hs
    refine StepsBelow.obj ?_ ha (getElem?_set_self (hlt.trans_le hstep.grows)) hs'
      (hstep.grows.trans_eq length_set.symm)
    rw [hsnd, hsnd]
    exact .into hnodup hchildren hlt hstep fun b hne => getElem?_set_ne (Ne.symm hne)

private theorem steps_intoElem {l m : List Placed} {c c' : Placed} {spare : List Ref}
    (ht : Held h₀ h (.arr a (l ++ c :: m)))
    (hnodup : (Owned.arr a (l ++ c :: m) : Placed).addrs.Nodup) (hstep : Steps h₀ h h₁ c c') :
    Steps h₀ h (h₁.set a (.arr ((l ++ c' :: m).map Owned.ref ++ spare)))
      (.arr a (l ++ c :: m)) (.arr a (l ++ c' :: m)) := by
  obtain ⟨ha, hlt⟩ := ht.bounds a mem_cons_self
  rw [Owned.addrs_arr] at hnodup
  cases ht with
  | arr _ _ hheld =>
    refine StepsBelow.arr ?_ ha (getElem?_set_self (hlt.trans_le hstep.grows))
      (hstep.grows.trans_eq length_set.symm)
    exact .into hnodup hheld hlt hstep fun b hne => getElem?_set_ne (Ne.symm hne)

end Children

/-! ### Writing what is lent adds no container -/

section Sublists

variable {f : Placed → List Nat} {x : Placed}

private theorem flatMap_insertIdx (hx : f x = []) (xs : List Placed) (i : Nat) :
    (xs.insertIdx i x).flatMap f = xs.flatMap f := by
  induction xs generalizing i with
  | nil => cases i <;> simp [hx]
  | cons y xs ih => cases i <;> simp [hx, ih]

private theorem flatMap_set_sublist (hx : f x = []) (xs : List Placed) (i : Nat) :
    ((xs.set i x).flatMap f).Sublist (xs.flatMap f) := by
  induction xs generalizing i with
  | nil => simp
  | cons y xs ih =>
    cases i with
    | zero => simp [hx]
    | succ i => simpa using ih i

private theorem flatMap_eraseIdx_sublist (xs : List Placed) (i : Nat) :
    ((xs.eraseIdx i).flatMap f).Sublist (xs.flatMap f) :=
  (eraseIdx_sublist xs i).flatMap f

private theorem flatMap_insert_sublist (hx : f x = []) (kvs : List (String × Placed)) (k : String) :
    (((insert k x kvs).map Prod.snd).flatMap f).Sublist ((kvs.map Prod.snd).flatMap f) := by
  induction kvs with
  | nil => simp [SortedAssoc.insert, hx]
  | cons p kvs ih =>
    rw [SortedAssoc.insert]
    split_ifs
    · simp [hx]
    · simp [hx]
    · simpa using ih

private theorem flatMap_erase_sublist (kvs : List (String × Placed)) (k : String) :
    (((erase k kvs).map Prod.snd).flatMap f).Sublist ((kvs.map Prod.snd).flatMap f) :=
  (filter_sublist.map Prod.snd).flatMap f

end Sublists

/-! ### One change -/

private theorem exists_obj_of_marks {m : List (String × Marked)} (h : t.marks = .obj () m) :
    ∃ a kvs, t = .obj a kvs ∧ mapValues Owned.marks kvs = m := by
  cases t with
  | lent | arr => cases h
  | obj a kvs =>
    rw [Owned.marks, Owned.entryMarks_eq] at h
    exact ⟨a, kvs, rfl, by simpa using h⟩

private theorem exists_arr_of_marks {xs : List Marked} (h : t.marks = .arr () xs) :
    ∃ a ys, t = .arr a ys ∧ ys.map Owned.marks = xs := by
  cases t with
  | lent | obj => cases h
  | arr a ys =>
    rw [Owned.marks, Owned.marksAll_eq_map] at h
    exact ⟨a, ys, rfl, by simpa using h⟩

private theorem map_value_marks (ys : List Placed) :
    (ys.map Owned.marks).map Owned.value = ys.map Owned.value := by
  rw [map_map]
  exact map_congr_left fun x _ => x.value_marks

section OneChange

variable {grow : Nat → Nat} {h₀ h : Heap} {ch : Change} {rc : RefChange} {a : Nat}

variable {kvs : List (String × Placed)} {ys : List Placed}

theorem Held.entry (ht : Held h₀ h (.obj a kvs)) {p : String × Placed} (hp : p ∈ kvs)
    (hnodup : (Owned.obj a kvs : Placed).addrs.Nodup) : Held h₀ h p.2 ∧ p.2.addrs.Nodup := by
  rw [Owned.addrs_obj] at hnodup
  refine ⟨by cases ht with | obj _ _ _ hheld => exact hheld p hp, ?_⟩
  exact (nodup_flatMap.mp hnodup.of_cons).1 p.2 (mem_map_of_mem hp)

theorem Held.elems (ht : Held h₀ h (.arr a ys)) : ∀ x ∈ ys, Held h₀ h x := by
  cases ht with
  | arr _ _ hheld => exact hheld

theorem Held.elem (ht : Held h₀ h (.arr a ys)) {x : Placed} (hx : x ∈ ys)
    (hnodup : (Owned.arr a ys : Placed).addrs.Nodup) : Held h₀ h x ∧ x.addrs.Nodup := by
  rw [Owned.addrs_arr] at hnodup
  exact ⟨ht.elems x hx, (nodup_flatMap.mp hnodup.of_cons).1 x hx⟩

private theorem lent_or_mem {ts : List Placed} (hnew : Reads h₀ ch.new rc.new) {x : Placed}
    (hx : x = .lent rc.new ch.new ∨ x ∈ ts) :
    x ∈ ts ∨ ∃ r v, x = .lent r v ∧ Reads h₀ v r :=
  hx.elim (fun heq => .inr ⟨_, _, heq, hnew⟩) .inl

theorem Held.obj_cell (ht : Held h₀ h (.obj a kvs)) :
    h[a]? = some (.obj (mapValues Owned.ref kvs)) ∧ Sorted kvs := by
  cases ht with
  | obj _ hcell hs => exact ⟨hcell, hs⟩

variable (grow) in
private theorem steps_putKey (hop : rc.op ≠ .remove) (hnew : Reads h₀ ch.new rc.new) {name : String}
    (ht : Held h₀ h (.obj a kvs)) (hnodup : (Owned.obj a kvs : Placed).addrs.Nodup) :
    ∃ h', applyStep grow rc h (.obj a) [.key name] = .ok (h', .obj a) ∧
      Steps h₀ h h' (.obj a kvs) (.obj a (SortedAssoc.insert name (.lent rc.new ch.new) kvs)) := by
  obtain ⟨hcell, hs⟩ := ht.obj_cell
  refine ⟨h.set a (.obj (mapValues Owned.ref
    (SortedAssoc.insert name (.lent rc.new ch.new) kvs))), ?_, ?_⟩
  · have hset : setKey h a name rc.new = h.set a (.obj (mapValues Owned.ref
        (SortedAssoc.insert name (.lent rc.new ch.new) kvs))) := by
      simp only [setKey, hcell, ← insert_mapValues, Owned.ref]
    rw [applyStep]
    simp only [hcell, isEmpty_nil, if_true, hset]
    cases hch : rc.op with
    | add | change => rfl
    | remove => exact absurd hch hop
  · refine steps_obj ht hnodup (sorted_insert hs) (fun p hp => lent_or_mem hnew ?_)
      (flatMap_insert_sublist rfl kvs name)
    exact (mem_insert hp).imp (fun heq => by rw [heq]) fun hp => mem_map_of_mem hp

variable (grow) in
private theorem steps_dropKey (hop : rc.op = .remove) {name : String}
    (hname : kvs.lookup name ≠ none)
    (ht : Held h₀ h (.obj a kvs)) (hnodup : (Owned.obj a kvs : Placed).addrs.Nodup) :
    ∃ h', applyStep grow rc h (.obj a) [.key name] = .ok (h', .obj a) ∧
      Steps h₀ h h' (.obj a kvs) (.obj a (erase name kvs)) := by
  obtain ⟨hcell, hs⟩ := ht.obj_cell
  refine ⟨h.set a (.obj (mapValues Owned.ref (erase name kvs))), ?_, ?_⟩
  · have hsome : ((mapValues Owned.ref kvs).lookup name).isNone = false := by
      rw [lookup_mapValues, Option.isNone_map]
      simpa using hname
    rw [applyStep]
    simp only [hcell, isEmpty_nil, if_true, hop, hsome, ← erase_mapValues]
    rfl
  · refine steps_obj ht hnodup (sorted_erase hs) (fun p hp => .inl ?_)
      (flatMap_erase_sublist kvs name)
    exact mem_map_of_mem (mem_of_mem_filter hp)

private theorem steps_setKey {name : String} {c c' : Placed} {h₁ : Heap}
    (hc : kvs.lookup name = some c)
    (ht : Held h₀ h (.obj a kvs)) (hnodup : (Owned.obj a kvs : Placed).addrs.Nodup)
    (hstep : Steps h₀ h h₁ c c') :
    Steps h₀ h (setKey h₁ a name c'.ref) (.obj a kvs)
      (.obj a (SortedAssoc.insert name c' kvs)) := by
  obtain ⟨hcell, hs⟩ := ht.obj_cell
  have hcell₁ : h₁[a]? = some (.obj (mapValues Owned.ref kvs)) := by
    rw [hstep.frame a (List.getElem?_eq_some_iff.mp hcell).1 fun hmem => ?_, hcell]
    rw [Owned.addrs_obj] at hnodup
    refine (nodup_cons.mp hnodup).1 (mem_flatMap.mpr ⟨c, ?_, hmem⟩)
    exact mem_map_of_mem (mem_of_lookup hc)
  simp only [setKey, hcell₁, insert_mapValues]
  obtain ⟨l, m, rfl, hl⟩ := exists_split hs hc
  rw [insert_split hl]
  exact steps_intoKey ht hnodup hstep

theorem Held.arr_cell (ht : Held h₀ h (.arr a ys)) :
    ∃ spare, h[a]? = some (.arr (ys.map Owned.ref ++ spare)) := by
  cases ht with
  | arr _ hcell => exact ⟨_, hcell⟩

private theorem take_slots (ys : List Placed) (spare : List Ref) :
    (ys.map Owned.ref ++ spare).take ys.length = ys.map Owned.ref := by
  rw [← length_map (f := Owned.ref), take_left]

variable (grow) in
private theorem steps_insertAt (hnew : Reads h₀ ch.new rc.new) {i : Nat} (hi : i ≤ ys.length)
    {spare : List Ref} (hcell : h[a]? = some (.arr (ys.map Owned.ref ++ spare)))
    (ht : Held h₀ h (.arr a ys)) (hnodup : (Owned.arr a ys : Placed).addrs.Nodup) :
    ∃ h' a', insertAt grow h a ys.length (ys.map Owned.ref ++ spare) i rc.new =
        (h', (Owned.arr a' (ys.insertIdx i (.lent rc.new ch.new)) : Placed).ref) ∧
      Steps h₀ h h' (.arr a ys) (.arr a' (ys.insertIdx i (.lent rc.new ch.new))) := by
  have href (a' : Nat) : (Owned.arr a' (ys.insertIdx i (.lent rc.new ch.new)) : Placed).ref =
      .arr a' (ys.length + 1) :=
    congrArg (Ref.arr a') (length_insertIdx_of_le_length hi _)
  have hmem : ∀ x ∈ ys.insertIdx i (.lent rc.new ch.new),
      x ∈ ys ∨ ∃ r v, x = .lent r v ∧ Reads h₀ v r := fun x hx =>
    lent_or_mem hnew (eq_or_mem_of_mem_insertIdx hx)
  have hsub : ((ys.insertIdx i (.lent rc.new ch.new)).flatMap Owned.addrs).Sublist
      (ys.flatMap Owned.addrs) := by
    rw [flatMap_insertIdx rfl]
  have hmap : (ys.map Owned.ref).insertIdx i rc.new =
      (ys.insertIdx i (.lent rc.new ch.new)).map Owned.ref := by
    rw [map_insertIdx]
    rfl
  have hlt := (List.getElem?_eq_some_iff.mp hcell).1
  simp only [insertAt, withRoom, href]
  split_ifs with hroom
  · -- there is room: the backing array is written
    simp only [take_slots, hmap]
    refine ⟨_, a, rfl, steps_arr ht hnodup hmem hsub (.inl rfl) (getElem?_set_self hlt)
      (fun b _ hne => getElem?_set_ne (Ne.symm hne)) (by simp)⟩
  · -- the array moves to a new cell
    simp only [take_slots, hmap]
    refine ⟨_, h.length, rfl, steps_arr ht hnodup hmem hsub (.inr le_rfl)
      (getElem?_set_self (by simp)) (fun b hb _ => ?_) (by simp)⟩
    rw [getElem?_set_ne (by omega), getElem?_append_left hb]

private theorem steps_setSlot (hnew : Reads h₀ ch.new rc.new) {i : Nat} (hi : i < ys.length)
    (ht : Held h₀ h (.arr a ys)) (hnodup : (Owned.arr a ys : Placed).addrs.Nodup) :
    Steps h₀ h (setSlot h a i rc.new) (.arr a ys) (.arr a (ys.set i (.lent rc.new ch.new))) := by
  obtain ⟨spare, hcell⟩ := ht.arr_cell
  have hlt := (List.getElem?_eq_some_iff.mp hcell).1
  have hset : setSlot h a i rc.new =
      h.set a (.arr ((ys.set i (.lent rc.new ch.new)).map Owned.ref ++ spare)) := by
    simp only [setSlot, hcell, set_append_left _ _ (length_map (f := Owned.ref) ▸ hi),
      map_set, Owned.ref]
  rw [hset]
  refine steps_arr ht hnodup (fun x hx => lent_or_mem hnew ?_) (flatMap_set_sublist rfl ys i)
    (.inl rfl) (getElem?_set_self hlt) (fun b _ hne => getElem?_set_ne (Ne.symm hne))
    (by simp)
  exact (mem_or_eq_of_mem_set hx).symm

private theorem steps_removeAt {i : Nat} (hi : i < ys.length) {spare : List Ref}
    (hcell : h[a]? = some (.arr (ys.map Owned.ref ++ spare))) (ht : Held h₀ h (.arr a ys))
    (hnodup : (Owned.arr a ys : Placed).addrs.Nodup) :
    ∃ h', removeAt h a ys.length (ys.map Owned.ref ++ spare) i =
        (h', (Owned.arr a (ys.eraseIdx i) : Placed).ref) ∧
      Steps h₀ h h' (.arr a ys) (.arr a (ys.eraseIdx i)) := by
  have hlt := (List.getElem?_eq_some_iff.mp hcell).1
  have href : (Owned.arr a (ys.eraseIdx i) : Placed).ref = .arr a (ys.length - 1) :=
    congrArg (Ref.arr a) (length_eraseIdx_of_lt hi)
  simp only [removeAt, take_slots, href, eraseIdx_map]
  exact ⟨_, rfl, steps_arr ht hnodup (fun x hx => .inl (mem_of_mem_eraseIdx hx))
    (flatMap_eraseIdx_sublist ys i) (.inl rfl) (getElem?_set_self hlt)
    (fun b _ hne => getElem?_set_ne (Ne.symm hne)) (by simp)⟩

private theorem steps_setSlot_into {i : Nat} {c c' : Placed} {h₁ : Heap} (hc : ys[i]? = some c)
    (ht : Held h₀ h (.arr a ys)) (hnodup : (Owned.arr a ys : Placed).addrs.Nodup)
    (hstep : Steps h₀ h h₁ c c') :
    Steps h₀ h (setSlot h₁ a i c'.ref) (.arr a ys) (.arr a (ys.set i c')) := by
  obtain ⟨spare, hcell⟩ := ht.arr_cell
  have hcell₁ : h₁[a]? = some (.arr (ys.map Owned.ref ++ spare)) := by
    rw [hstep.frame a (List.getElem?_eq_some_iff.mp hcell).1 fun hmem => ?_, hcell]
    rw [Owned.addrs_arr] at hnodup
    exact (nodup_cons.mp hnodup).1 (mem_flatMap.mpr ⟨c, mem_of_getElem? hc, hmem⟩)
  have hlt := (List.getElem?_eq_some_iff.mp hc).1
  have hset : setSlot h₁ a i c'.ref = h₁.set a (.arr ((ys.set i c').map Owned.ref ++ spare)) := by
    simp only [setSlot, hcell₁, map_set,
      set_append_left _ _ (length_map (f := Owned.ref) ▸ hlt)]
  rw [hset]
  obtain ⟨l, m, rfl, rfl⟩ : ∃ l m, ys = l ++ c :: m ∧ l.length = i := by
    obtain ⟨hlt, rfl⟩ := List.getElem?_eq_some_iff.mp hc
    exact ⟨ys.take i, ys.drop (i + 1), by simp, length_take_of_le hlt.le⟩
  rw [set_append_right _ _ le_rfl, Nat.sub_self, set_cons_zero]
  exact steps_intoElem ht hnodup hstep

section Array

variable {ys : List Placed} {spare : List Ref} {s : PathSeg} {i : Nat}

/-- A segment that selects an element acts as the index of the element, except that nothing can be
added there. -/
theorem applyStep_selects (he : Extends h₀ h) (hheld : ∀ x ∈ ys, Held h₀ h x)
    (hi : Selects s (ys.map Owned.value) i)
    (hcell : h[a]? = some (.arr (ys.map Owned.ref ++ spare))) {rest : List PathSeg}
    (hop : rest = [] → rc.op ≠ .add) :
    applyStep grow rc h (.arr a ys.length) (s :: rest) =
      applyStep grow rc h (.arr a ys.length) (.index i :: rest) := by
  have hin : ¬((i : Int) < 0 ∨ (ys.length : Int) ≤ i) := by
    have := hi.lt
    rw [length_map] at this
    omega
  obtain ⟨rfl, -⟩ | ⟨kf, kv, rfl, hidx⟩ := hi
  · rfl
  · rw [← indexOfKey_of_held he hheld, ← take_slots ys spare] at hidx
    rw [applyStep, applyStep]
    cases rest with
    | nil =>
      cases hch : rc.op with
      | add => exact absurd hch (hop rfl)
      | change | remove => simp only [hcell, hidx, hin, if_false, Int.toNat_natCast]
    | cons s' rest =>
      simp only [hcell, isEmpty_cons, Bool.false_eq_true, hidx, hin, if_false,
        Int.toNat_natCast]

private theorem applyStep_arr_add (hop : rc.op = .add) (hi : Inserts s (ys.map Owned.value) i)
    (hcell : h[a]? = some (.arr (ys.map Owned.ref ++ spare))) :
    applyStep grow rc h (.arr a ys.length) [s] =
      .ok (insertAt grow h a ys.length (ys.map Owned.ref ++ spare) i rc.new) := by
  obtain ⟨rfl, hle⟩ | ⟨kf, kv, rfl, rfl⟩ := hi
  · rw [length_map] at hle
    have hin : ¬((i : Int) < 0 ∨ (ys.length : Int) < i) := by omega
    rw [applyStep]
    simp only [hcell, isEmpty_nil, if_true, hop, hin, if_false, Int.toNat_natCast]
  · rw [applyStep]
    simp only [hcell, isEmpty_nil, if_true, hop, length_map]

private theorem applyStep_arr_change (hop : rc.op = .change) (hi : i < ys.length)
    (hcell : h[a]? = some (.arr (ys.map Owned.ref ++ spare))) :
    applyStep grow rc h (.arr a ys.length) [.index i] =
      .ok (setSlot h a i rc.new, .arr a ys.length) := by
  have hin : ¬((i : Int) < 0 ∨ (ys.length : Int) ≤ i) := by omega
  rw [applyStep]
  simp only [hcell, isEmpty_nil, if_true, hop, hin, if_false, Int.toNat_natCast]

private theorem applyStep_arr_remove (hop : rc.op = .remove) (hi : i < ys.length)
    (hcell : h[a]? = some (.arr (ys.map Owned.ref ++ spare))) :
    applyStep grow rc h (.arr a ys.length) [.index i] =
      .ok (removeAt h a ys.length (ys.map Owned.ref ++ spare) i) := by
  have hin : ¬((i : Int) < 0 ∨ (ys.length : Int) ≤ i) := by omega
  rw [applyStep]
  simp only [hcell, isEmpty_nil, if_true, hop, hin, if_false, Int.toNat_natCast]

private theorem applyStep_arr_into (hcell : h[a]? = some (.arr (ys.map Owned.ref ++ spare)))
    {t : Placed} (ht : ys[i]? = some t) {s' : PathSeg} {rest : List PathSeg} {h₁ : Heap} {nv : Ref}
    (hstep : applyStep grow rc h t.ref (s' :: rest) = .ok (h₁, nv)) :
    applyStep grow rc h (.arr a ys.length) (.index i :: s' :: rest) =
      .ok (setSlot h₁ a i nv, .arr a ys.length) := by
  have hlt := (List.getElem?_eq_some_iff.mp ht).1
  have hget : (ys.map Owned.ref ++ spare).getD i .null = t.ref := by
    rw [getD_eq_getElem?_getD, getElem?_append_left (by simpa using hlt),
      getElem?_map, ht]
    rfl
  have hin : ¬((i : Int) < 0 ∨ (ys.length : Int) ≤ i) := by omega
  rw [applyStep]
  simp only [hcell, isEmpty_cons, Bool.false_eq_true, if_false, hin, Int.toNat_natCast, hget,
    hstep]

end Array

variable (grow) in
/-- **One change in place.** An edit that keeps off lent values is carried out on the own cells
of the value. -/
theorem Owned.Step.inPlace (hop : rc.op = ch.op) (hnew : Reads h₀ ch.new rc.new)
    (he : Extends h₀ h) {u u' : Marked} {segs : List PathSeg} (hstep : Owned.Step ch u segs u')
    {t : Placed} (hmarks : t.marks = u) (ht : Held h₀ h t) (hnodup : t.addrs.Nodup) :
    ∃ h' t', Mutable.applyStep grow rc h t.ref segs = .ok (h', t'.ref) ∧ t'.marks = u' ∧
      Steps h₀ h h' t t' := by
  induction hstep generalizing t with
  | @putKey m name hput =>
    obtain ⟨a, kvs, rfl, rfl⟩ := exists_obj_of_marks hmarks
    obtain ⟨h', hrun, hsteps⟩ := steps_putKey grow (hop ▸ hput) hnew ht hnodup
    refine ⟨h', .obj a (SortedAssoc.insert name (.lent rc.new ch.new) kvs), hrun, ?_, hsteps⟩
    rw [Owned.marks, Owned.entryMarks_eq, ← insert_mapValues]
    rfl
  | @dropKey m name hdrop hname =>
    obtain ⟨a, kvs, rfl, rfl⟩ := exists_obj_of_marks hmarks
    rw [lookup_mapValues] at hname
    obtain ⟨h', hrun, hsteps⟩ := steps_dropKey grow (hop.trans hdrop)
      (fun hnone => hname (by rw [hnone]; rfl)) ht hnodup
    refine ⟨h', .obj a (erase name kvs), hrun, ?_, hsteps⟩
    rw [Owned.marks, Owned.entryMarks_eq, ← erase_mapValues]
  | @intoKey m name s rest c c' hc _ ih =>
    obtain ⟨a, kvs, rfl, rfl⟩ := exists_obj_of_marks hmarks
    rw [lookup_mapValues] at hc
    obtain ⟨t, hlook, rfl⟩ := Option.map_eq_some_iff.mp hc
    obtain ⟨hheld, hbelow⟩ := ht.entry (mem_of_lookup hlook) hnodup
    obtain ⟨h₁, t', hrun, rfl, hsteps⟩ := ih rfl hheld hbelow
    refine ⟨_, .obj a (SortedAssoc.insert name t' kvs), ?_, ?_,
      steps_setKey hlook ht hnodup hsteps⟩
    · have hobj (kvs : List (String × Placed)) : (Owned.obj a kvs : Placed).ref = .obj a := rfl
      rw [hobj, hobj, Mutable.applyStep]
      simp only [ht.obj_cell.1, isEmpty_cons, Bool.false_eq_true, if_false, lookup_mapValues,
        hlook, Option.map_some, hrun]
    · rw [Owned.marks, Owned.entryMarks_eq, ← insert_mapValues]
  | @putNew xs s i hadd hi =>
    obtain ⟨a, ys, rfl, rfl⟩ := exists_arr_of_marks hmarks
    rw [map_value_marks] at hi
    obtain ⟨spare, hcell⟩ := ht.arr_cell
    obtain ⟨h', a', hrun, hsteps⟩ := steps_insertAt grow hnew
      (by simpa using hi.le) hcell ht hnodup
    refine ⟨h', .arr a' (ys.insertIdx i (.lent rc.new ch.new)), ?_, ?_, hsteps⟩
    · rw [Owned.ref, applyStep_arr_add (hop.trans hadd) hi hcell, hrun]
    · rw [Owned.marks, Owned.marksAll_eq_map, map_insertIdx]
      rfl
  | @putOver xs s i hchange hi =>
    obtain ⟨a, ys, rfl, rfl⟩ := exists_arr_of_marks hmarks
    rw [map_value_marks] at hi
    obtain ⟨spare, hcell⟩ := ht.arr_cell
    have hlt : i < ys.length := by simpa using hi.lt
    refine ⟨setSlot h a i rc.new, .arr a (ys.set i (.lent rc.new ch.new)), ?_, ?_,
      steps_setSlot hnew hlt ht hnodup⟩
    · rw [Owned.ref, applyStep_selects he ht.elems hi hcell (by simp [hop, hchange]),
        applyStep_arr_change (hop.trans hchange) hlt hcell, Owned.ref, length_set]
    · rw [Owned.marks, Owned.marksAll_eq_map, map_set]
      rfl
  | @dropElem xs s i hdrop hi =>
    obtain ⟨a, ys, rfl, rfl⟩ := exists_arr_of_marks hmarks
    rw [map_value_marks] at hi
    obtain ⟨spare, hcell⟩ := ht.arr_cell
    have hlt : i < ys.length := by simpa using hi.lt
    obtain ⟨h', hrun, hsteps⟩ := steps_removeAt hlt hcell ht hnodup
    refine ⟨h', .arr a (ys.eraseIdx i), ?_, ?_, hsteps⟩
    · rw [Owned.ref, applyStep_selects he ht.elems hi hcell (by simp [hop, hdrop]),
        applyStep_arr_remove (hop.trans hdrop) hlt hcell, hrun]
    · rw [Owned.marks, Owned.marksAll_eq_map, eraseIdx_map]
  | @intoElem xs s i s' rest c c' hi hc _ ih =>
    obtain ⟨a, ys, rfl, rfl⟩ := exists_arr_of_marks hmarks
    rw [map_value_marks] at hi
    obtain ⟨spare, hcell⟩ := ht.arr_cell
    rw [getElem?_map] at hc
    obtain ⟨t, hget, rfl⟩ := Option.map_eq_some_iff.mp hc
    obtain ⟨hheld, hbelow⟩ := ht.elem (mem_of_getElem? hget) hnodup
    obtain ⟨h₁, t', hrun, rfl, hsteps⟩ := ih rfl hheld hbelow
    refine ⟨_, .arr a (ys.set i t'), ?_, ?_, steps_setSlot_into hget ht hnodup hsteps⟩
    · rw [Owned.ref, applyStep_selects he ht.elems hi hcell (by simp),
        applyStep_arr_into hcell hget hrun, Owned.ref, length_set]
    · rw [Owned.marks, Owned.marksAll_eq_map, map_set]

end OneChange

end Letopis.Mutable
