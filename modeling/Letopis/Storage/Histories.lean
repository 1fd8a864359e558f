import Letopis.Storage.Frame

/-!
# Gap-free histories

An entity's events have the versions `1, ..., n` in the order in which they were inserted, and its
current state does not run ahead of them. This is what every run of writers keeps
(`Letopis.Writers.Versions`); here are its consequences for one store.
-/

namespace Letopis

open List

/-- The versions of the entity's events are `1, ..., n` in insertion order, and its current
state does not run ahead of them. -/
structure Db.Sequenced (db : Db) (c e : String) : Prop where
  versions : (db.hist c e).map Event.version = List.range' 1 (db.hist c e).length
  /-- The current state is at most as recent as the history. -/
  current : ∀ st, (db c).current e = some st → st.version ≤ (db.hist c e).length

/-- An entity that nothing has been written about yet. -/
structure Db.Untouched (db : Db) (c e : String) : Prop where
  hist : db.hist c e = []
  current : (db c).current e = none

/-- A database in which nothing has been written yet. -/
def Db.Blank (db : Db) : Prop := ∀ c, (db c).events = [] ∧ ∀ e, (db c).current e = none

theorem Db.Blank.untouched {db : Db} (h : db.Blank) (c e : String) : db.Untouched c e :=
  ⟨by simp [Db.hist, (h c).1], (h c).2 e⟩

theorem Db.Untouched.sequenced {db : Db} {c e : String} (h : db.Untouched c e) :
    db.Sequenced c e := by
  refine ⟨by simp [h.hist], fun st hst => ?_⟩
  rw [h.current] at hst
  cases hst

theorem Db.Blank.sequenced {db : Db} (h : db.Blank) (c e : String) : db.Sequenced c e :=
  (h.untouched c e).sequenced

namespace Db.Sequenced

variable {db : Db} {c e : String}

variable (h : db.Sequenced c e)

include h

theorem mem_versions {ev : Event} (hev : ev ∈ db.hist c e) :
    1 ≤ ev.version ∧ ev.version ≤ (db.hist c e).length := by
  have hmem : ev.version ∈ (db.hist c e).map Event.version := mem_map_of_mem hev
  rw [h.versions, mem_range'_1] at hmem
  omega

theorem exists_version {v : Nat} (hv : 1 ≤ v) (hle : v ≤ (db.hist c e).length) :
    ∃ ev ∈ db.hist c e, ev.version = v := by
  have hmem : v ∈ (db.hist c e).map Event.version := by
    rw [h.versions, mem_range'_1]
    omega
  exact mem_map.mp hmem

theorem top_eq : db.top c e = (db.hist c e).length := by
  rcases Db.top_eq_zero_or_mem db c e with ⟨hnil, htop⟩ | ⟨ev, hev, htop⟩
  · rw [htop, hnil, length_nil]
  · refine le_antisymm (htop ▸ (h.mem_versions hev).2) ?_
    have hpos : 1 ≤ (db.hist c e).length := length_pos_of_mem hev
    obtain ⟨x, hx, hxv⟩ := h.exists_version hpos le_rfl
    exact hxv ▸ Db.version_le_top hx

theorem eq_of_version {ev ev' : Event} (hev : ev ∈ db.hist c e) (hev' : ev' ∈ db.hist c e)
    (hv : ev.version = ev'.version) : ev = ev' := by
  have hnodup : ((db.hist c e).map Event.version).Nodup := by
    rw [h.versions]
    exact nodup_range'
  exact inj_on_of_nodup_map hnodup hev hev' hv

/-- An event whose version is free and at most one above the last one has the next version. -/
theorem version_eq {ev : Event} (he : ev.entityID = e) (hfree : db.VersionFree c ev)
    (hpos : 1 ≤ ev.version) (hle : ev.version ≤ db.top c e + 1) :
    ev.version = (db.hist c e).length + 1 := by
  rw [h.top_eq] at hle
  by_contra hne
  obtain ⟨x, hx, hxv⟩ := h.exists_version hpos (by omega)
  obtain ⟨hmem, hxe⟩ := Db.mem_hist.mp hx
  exact hfree x hmem ⟨hxe.trans he.symm, hxv⟩

theorem getElem_version {i : Nat} (hi : i < (db.hist c e).length) :
    (db.hist c e)[i].version = i + 1 := by
  have hmap : ((db.hist c e).map Event.version)[i]? = some (i + 1) := by
    rw [h.versions, getElem?_range' hi]
    simp [Nat.add_comm]
  simpa [hi] using hmap

/-- One more event under the next version, and the current state refreshed to it or left. -/
theorem concat {db' : Db} {x : Event} (hist : db'.hist c e = db.hist c e ++ [x])
    (hx : x.version = (db.hist c e).length + 1) (hcur : ∀ st, (db' c).current e = some st →
      (db c).current e = some st ∨ st.version = x.version) : db'.Sequenced c e := by
  refine ⟨?_, fun st hst => ?_⟩
  · rw [hist, map_append, h.versions, length_append, length_singleton,
      range'_concat]
    simp [hx, Nat.add_comm]
  · rw [hist, length_append, length_singleton]
    rcases hcur st hst with hold | hnew
    · exact (h.current st hold).trans (Nat.le_succ _)
    · omega

theorem pairwise_version : (db.hist c e).Pairwise fun x y => x.version ≤ y.version := by
  have hsorted : ((db.hist c e).map Event.version).Pairwise (· ≤ ·) := by
    rw [h.versions]
    exact (pairwise_lt_range' 1).imp Nat.le_of_lt
  exact pairwise_map.mp hsorted

/-- Versions are positions in the history. -/
theorem filter_versions (a b : Nat) :
    ((db.hist c e).filter fun ev => a < ev.version ∧ ev.version ≤ b) =
      ((db.hist c e).take b).drop a := by
  have hupto : ∀ k, ∀ x ∈ (db.hist c e).take k, x.version ≤ k := by
    intro k x hx
    obtain ⟨i, hi, rfl⟩ := mem_take_iff_getElem.mp hx
    rw [h.getElem_version (by omega)]
    omega
  have habove : ∀ k, ∀ x ∈ (db.hist c e).drop k, k < x.version := by
    intro k x hx
    obtain ⟨i, hi, rfl⟩ := mem_drop_iff_getElem.mp hx
    rw [h.getElem_version (by omega)]
    omega
  -- of the three parts of the history only the middle one passes
  have hlow : (((db.hist c e).take b).take a).filter
      (fun ev => decide (a < ev.version ∧ ev.version ≤ b)) = [] := by
    refine filter_eq_nil_iff.mpr fun x hx => ?_
    rw [take_take, Nat.min_comm, ← take_take] at hx
    have := hupto a x (mem_of_mem_take hx)
    simp only [decide_eq_true_eq]
    omega
  have hmid : (((db.hist c e).take b).drop a).filter
      (fun ev => decide (a < ev.version ∧ ev.version ≤ b)) = ((db.hist c e).take b).drop a := by
    refine filter_eq_self.mpr fun x hx => ?_
    have hb := hupto b x (mem_of_mem_drop hx)
    rw [drop_take] at hx
    have ha := habove a x (mem_of_mem_take hx)
    simp only [decide_eq_true_eq]
    omega
  have hhigh : ((db.hist c e).drop b).filter
      (fun ev => decide (a < ev.version ∧ ev.version ≤ b)) = [] := by
    refine filter_eq_nil_iff.mpr fun x hx => ?_
    have := habove b x hx
    simp only [decide_eq_true_eq]
    omega
  calc (db.hist c e).filter _
      = ((((db.hist c e).take b).take a ++ ((db.hist c e).take b).drop a) ++
          (db.hist c e).drop b).filter _ := by rw [take_append_drop, take_append_drop]
    _ = ((db.hist c e).take b).drop a := by
      rw [filter_append, filter_append, hlow, hmid, hhigh, nil_append,
        append_nil]

end Db.Sequenced

theorem top_le_handle {srv : Server} {call : Call} {f : Fault} {db : Db} (c e : String) :
    db.top c e ≤ (handle srv call f db).2.top c e := by
  rcases hist_handle srv call f db c e with
    heq | ⟨ev, -, -, -, -, -, happ⟩
  · exact (Db.top_congr heq).ge
  · rcases Db.top_eq_zero_or_mem db c e with ⟨-, htop⟩ | ⟨x, hx, hxv⟩
    · omega
    · rw [← hxv]
      exact Db.version_le_top (happ ▸ mem_append_left _ hx)

end Letopis
