import Letopis.Storage.Db

/-!
# What a call can do to the store

Each part of the store is written by one call only, and each write touches one entity of one
collection. This module says so once: simp lemmas for the three updates, and for each part an
inversion of `handle` (`hist_handle`, `current_handle`). Proofs about runs use these and never
unfold `serve`.
-/

namespace Letopis

open Interleaving List Function

namespace Db

variable (db : Db) (c c' e e' : String) (ev : Event) (st : CurrentState) (snap : Snapshot)

private theorem update_keeps {α : Type} {part : Coll → α} {coll : Coll}
    (h : part coll = part (db c)) : part (update db c coll c') = part (db c') := by
  by_cases hc : c' = c
  · subst hc
    rw [update_self, h]
  · rw [update_of_ne hc]

@[simp] theorem append_config : (db.append c ev c').config = (db c').config :=
  update_keeps db c c' rfl

@[simp] theorem upsert_config : (db.upsert c st c').config = (db c').config :=
  update_keeps db c c' rfl

@[simp] theorem save_config : (db.save c snap c').config = (db c').config :=
  update_keeps db c c' rfl

theorem append_events : (db.append c ev c').events =
    if c' = c then (db c').events ++ [ev] else (db c').events := by
  by_cases h : c' = c
  · subst h; simp [append]
  · simp [append, h]

@[simp] theorem upsert_events : (db.upsert c st c').events = (db c').events :=
  update_keeps db c c' rfl

@[simp] theorem save_events : (db.save c snap c').events = (db c').events :=
  update_keeps db c c' rfl

@[simp] theorem append_current : (db.append c ev c').current = (db c').current :=
  update_keeps db c c' rfl

theorem upsert_current : (db.upsert c st c').current e =
    if c' = c ∧ e = st.entityID then some st else (db c').current e := by
  by_cases h : c' = c
  · subst h
    by_cases he : e = st.entityID
    · subst he; simp [upsert]
    · simp [upsert, he]
  · simp [upsert, h]

@[simp] theorem save_current : (db.save c snap c').current = (db c').current :=
  update_keeps db c c' rfl

@[simp] theorem append_snapshots : (db.append c ev c').snapshots = (db c').snapshots :=
  update_keeps db c c' rfl

@[simp] theorem upsert_snapshots : (db.upsert c st c').snapshots = (db c').snapshots :=
  update_keeps db c c' rfl

theorem mem_save_snapshots {s : Snapshot} (h : s ∈ (db.save c snap c').snapshots) :
    (c' = c ∧ s = snap) ∨ s ∈ (db c').snapshots := by
  by_cases hc : c' = c
  · subst hc
    simp only [save, update_self, mem_append, mem_singleton] at h
    rcases h with h | h
    · exact .inr (mem_of_mem_filter h)
    · exact .inl ⟨rfl, h⟩
  · simp only [save, update_of_ne hc] at h
    exact .inr h

/-! ### Histories -/

theorem hist_append : (db.append c ev).hist c' e =
    if c' = c ∧ ev.entityID = e then db.hist c' e ++ [ev] else db.hist c' e := by
  simp only [hist, append_events]
  by_cases hc : c' = c <;> by_cases he : ev.entityID = e <;> simp [hc, he, filter_append]

@[simp] theorem hist_upsert : (db.upsert c st).hist c' e = db.hist c' e := by simp [hist]

@[simp] theorem hist_save : (db.save c snap).hist c' e = db.hist c' e := by simp [hist]

variable {db c e}

theorem mem_hist {ev : Event} : ev ∈ db.hist c e ↔ ev ∈ (db c).events ∧ ev.entityID = e := by
  simp [hist]

theorem top_congr {db' : Db} (h : db'.hist c e = db.hist c e) : db'.top c e = db.top c e := by
  rw [top, top, h]

theorem version_le_top {ev : Event} (h : ev ∈ db.hist c e) : ev.version ≤ db.top c e := by
  rw [top]
  cases hm : (db.hist c e).argmax Event.version with
  | none =>
    rw [argmax_eq_none] at hm
    rw [hm] at h
    exact absurd h not_mem_nil
  | some m => exact le_of_mem_argmax h hm

variable (db c e) in
theorem top_eq_zero_or_mem : (db.hist c e = [] ∧ db.top c e = 0) ∨
    ∃ ev ∈ db.hist c e, ev.version = db.top c e := by
  rw [top]
  cases hm : (db.hist c e).argmax Event.version with
  | none => exact .inl ⟨argmax_eq_none.mp hm, rfl⟩
  | some m => exact .inr ⟨m, argmax_mem hm, rfl⟩

theorem top_append {ev : Event} (he : ev.entityID = e) (h : db.top c e ≤ ev.version) :
    (db.append c ev).top c e = ev.version := by
  have hist : (db.append c ev).hist c e = db.hist c e ++ [ev] := by
    rw [hist_append, if_pos ⟨rfl, he⟩]
  refine le_antisymm ?_ (version_le_top (by simp [hist]))
  rcases top_eq_zero_or_mem (db.append c ev) c e with ⟨-, htop⟩ | ⟨x, hx, htop⟩
  · omega
  · rw [← htop]
    rcases mem_append.mp (hist ▸ hx) with hx | hx
    · exact (version_le_top hx).trans h
    · rw [mem_singleton.mp hx]

theorem versionFree_of_top_lt {ev : Event} (h : db.top c ev.entityID < ev.version) :
    db.VersionFree c ev := by
  rintro x hx ⟨hxe, hxv⟩
  have := version_le_top (mem_hist.mpr ⟨hx, hxe⟩)
  omega

end Db

/-! ### Inversion of a call -/

section

variable {srv : Server} {call : Call} {f : Fault} {db : Db} {c e : String}

@[simp] theorem config_handle : ((handle srv call f db).2 c).config = (db c).config := by
  cases f <;> cases call <;> simp only [handle, serve] <;> (repeat' split) <;> simp

variable (srv call f db c e) in
/-- A history is extended by an insertion that the indexes admit, and changed by nothing
else. -/
theorem hist_handle : (handle srv call f db).2.hist c e = db.hist c e ∨
    ∃ ev, call = .insertEvent c ev ∧ ev.entityID = e ∧ f ≠ .before ∧ db.VersionFree c ev ∧
      db.EventIDFree c ev ∧ (handle srv call f db).2.hist c e = db.hist c e ++ [ev] := by
  have key : (serve srv call db).2.hist c e = db.hist c e ∨
      ∃ ev, call = .insertEvent c ev ∧ ev.entityID = e ∧ db.VersionFree c ev ∧
        db.EventIDFree c ev ∧ (serve srv call db).2.hist c e = db.hist c e ++ [ev] := by
    cases call with
    | insertEvent c' ev =>
      by_cases hv : db.VersionFree c' ev
      · by_cases hi : db.EventIDFree c' ev
        · by_cases hce : c = c' ∧ ev.entityID = e
          · obtain ⟨rfl, he⟩ := hce
            exact .inr ⟨ev, rfl, he, hv, hi, by simp [serve, hv, hi, Db.hist_append, he]⟩
          · exact .inl (by simp [serve, hv, hi, Db.hist_append, hce])
        · exact .inl (by simp [serve, hv, hi])
      · exact .inl (by simp [serve, hv])
    | _ => exact .inl (by simp [serve])
  cases f with
  | before => exact .inl rfl
  | none | after =>
    rcases key with heq | ⟨ev, hc, he, hv, hi, happ⟩
    · exact .inl heq
    · exact .inr ⟨ev, hc, he, by simp, hv, hi, happ⟩

variable (srv call f db c e) in
theorem hist_prefix_handle : db.hist c e <+: (handle srv call f db).2.hist c e := by
  rcases hist_handle srv call f db c e with heq | ⟨ev, -, -, -, -, -, happ⟩
  · rw [heq]
  · rw [happ]
    exact prefix_append _ _

variable (srv call f db c e) in
/-- The current state of an entity is replaced by an upsert, and changed by nothing else. -/
theorem current_handle : ((handle srv call f db).2 c).current e = (db c).current e ∨
    ∃ st, call = .upsertCurrent c st ∧ st.entityID = e ∧ f ≠ .before ∧
      ((handle srv call f db).2 c).current e = some st := by
  have key : ((serve srv call db).2 c).current e = (db c).current e ∨
      ∃ st, call = .upsertCurrent c st ∧ st.entityID = e ∧
        ((serve srv call db).2 c).current e = some st := by
    cases call with
    | upsertCurrent c' st =>
      by_cases hce : c = c' ∧ e = st.entityID
      · obtain ⟨rfl, rfl⟩ := hce
        exact .inr ⟨st, rfl, rfl, by simp [serve, Db.upsert_current]⟩
      · exact .inl (by simp [serve, Db.upsert_current, hce])
    | insertEvent c' ev =>
      left
      simp only [serve]
      split_ifs <;> simp
    | _ => exact .inl (by simp [serve])
  cases f with
  | before => exact .inl rfl
  | none | after =>
    rcases key with heq | ⟨st, hc, he, hst⟩
    · exact .inl heq
    · exact .inr ⟨st, hc, he, by simp, hst⟩

theorem insertEvent_ok {ev : Event} {u : Unit}
    (h : (handle srv (.insertEvent c ev) f db).1 = .ok u) :
    f = .none ∧ db.VersionFree c ev ∧ db.EventIDFree c ev ∧
      (handle srv (.insertEvent c ev) f db).2 = db.append c ev := by
  cases f with
  | before | after => cases h
  | none =>
    simp only [handle, serve] at h ⊢
    split_ifs at h ⊢ with hv hi
    exact ⟨trivial, hv, hi, rfl⟩

theorem getCurrent_ok {st : CurrentState} (h : (handle srv (.getCurrent c e) f db).1 = .ok st) :
    (db c).current e = some st := by
  cases f with
  | before | after => cases h
  | none =>
    simp only [handle, serve, orNotFound] at h
    split at h
    · cases h
    · cases h
      assumption

theorem getCurrent_notFound (h : (handle srv (.getCurrent c e) f db).1 = .error .notFound) :
    (db c).current e = none := by
  cases f with
  | before | after => cases h
  | none =>
    simp only [handle, serve, orNotFound] at h
    split at h
    · assumption
    · cases h

theorem ensureCollection_ok {cfg : CollectionConfig}
    (h : (handle srv (.ensureCollection c) f db).1 = .ok cfg) : cfg = (db c).config := by
  cases f with
  | before | after => cases h
  | none =>
    cases h
    rfl

theorem lastEvent_ok {ev : Event} (h : (handle srv (.lastEvent c e) f db).1 = .ok ev) :
    ev ∈ db.hist c e := by
  cases f with
  | before | after => cases h
  | none =>
    simp only [handle, serve, orNotFound] at h
    split at h
    · cases h
    · next hmax =>
      cases h
      exact argmax_mem hmax

theorem lastVersion_ok {v : Nat} (h : (handle srv (.lastVersion c e) f db).1 = .ok v) :
    v = db.top c e := by
  cases f with
  | before | after => cases h
  | none =>
    cases h
    rfl

end

end Letopis
