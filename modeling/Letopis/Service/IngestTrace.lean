import Letopis.Service.Ingest
import Letopis.Interleaving.Trace

/-!
# What a write does

`Write.along` says once what a write can do, for whatever its storage calls are answered: which
calls it makes after which observations (`Write.Does`), and what it returns after which
observations (`Write.Ends`). Everything proved later about concurrent writers is proved from
these two relations.

The heart of both is `Write.Planned`: the event to be appended was planned from the
configuration and the current state this write has read, its lock was checked against that
state, and the pre-store hooks have run over it with the last event read.
-/

namespace Letopis

open Interleaving List

/-- A call has been made and answered so. -/
def Saw (seen : List (Obs Storage)) (call : Call) (r : Except StoreErr call.Value) : Prop :=
  (⟨call, r⟩ : Obs Storage) ∈ seen

section Saw

variable {seen seen' : List (Obs Storage)} {call : Call} {r : Except StoreErr call.Value}
  {o : Obs Storage} {c e : String}

theorem Saw.mono (h : Saw seen call r) (hs : seen ⊆ seen') : Saw seen' call r := hs h

theorem saw_self : Saw (⟨call, r⟩ :: seen) call r := mem_cons_self

theorem Saw.of_cons (h : Saw (o :: seen) call r) (ho : o ≠ ⟨call, r⟩) : Saw seen call r :=
  (mem_cons.mp h).resolve_left ho.symm

/-- The current state a write has read. -/
def SawCurrent (seen : List (Obs Storage)) (c e : String) : Option CurrentState → Prop
  | none => Saw seen (.getCurrent c e) (.error .notFound)
  | some st => Saw seen (.getCurrent c e) (.ok st)

/-- The last event a write has read. -/
def SawLast (seen : List (Obs Storage)) (c e : String) : Option Event → Prop
  | none => Saw seen (.lastEvent c e) (.error .notFound)
  | some ev => Saw seen (.lastEvent c e) (.ok ev)

theorem SawCurrent.mono {cur : Option CurrentState} (h : SawCurrent seen c e cur)
    (hs : seen ⊆ seen') : SawCurrent seen' c e cur := by
  cases cur <;> exact hs h

theorem SawLast.mono {last : Option Event} (h : SawLast seen c e last) (hs : seen ⊆ seen') :
    SawLast seen' c e last := by
  cases last <;> exact hs h

/-- No current state has been written. -/
def NoUpsert (seen : List (Obs Storage)) (c : String) : Prop :=
  ∀ st r, ¬ Saw seen (.upsertCurrent c st) r

/-- As far as its own record goes, the program has written nothing: no insertion was answered
without error and no current state was refreshed. -/
structure Untouched (seen : List (Obs Storage)) (c : String) : Prop where
  noInsert : ∀ ev, ¬ Saw seen (.insertEvent c ev) (.ok ())
  noUpsert : NoUpsert seen c

theorem Untouched.cons (h : Untouched seen c) (ho : ∀ ev, o ≠ ⟨.insertEvent c ev, .ok ()⟩)
    (ho' : ∀ st r, o ≠ ⟨.upsertCurrent c st, r⟩) : Untouched (o :: seen) c :=
  ⟨fun ev hev => h.noInsert ev (hev.of_cons (ho ev)),
    fun st r hst => h.noUpsert st r (hst.of_cons (ho' st r))⟩

end Saw

/-! ### Planned events -/

/-- The second event is the first with other metadata and another integrity block: all that a
pre-store plugin can do. -/
def Event.Annotates (ev ev' : Event) : Prop :=
  ∃ m i, ev' = { ev with metadata := m, integrity := i }

theorem Event.Annotates.trans {ev ev' ev'' : Event} (h : ev.Annotates ev')
    (h' : ev'.Annotates ev'') : ev.Annotates ev'' := by
  obtain ⟨m, i, rfl⟩ := h
  obtain ⟨m', i', rfl⟩ := h'
  exact ⟨m', i', rfl⟩

theorem annotates_perform (ev : Event) (edits : List DraftEdit) :
    ev.Annotates (edits.foldl DraftEdit.perform ev) := by
  induction edits generalizing ev with
  | nil => exact ⟨_, _, rfl⟩
  | cons edit edits ih =>
    have hedit : ev.Annotates (edit.perform ev) := by
      cases edit <;> exact ⟨_, _, rfl⟩
    exact hedit.trans (ih _)

section Planning

variable {cfg : CollectionConfig} {c : String} {prev : EntityView} {pre : List PreStorePlugin}
  {received : Time} {kind : Kind} {cmd : IngestCommand} {cur : Option CurrentState}
  {ev ev' : Event} {e : IngestErr}

theorem annotates_runPreStore (h : runPreStore cfg c prev pre ev = .ok ev') :
    ev.Annotates ev' := by
  induction pre generalizing ev with
  | nil =>
    cases h
    exact ⟨_, _, rfl⟩
  | cons p pre ih =>
    simp only [runPreStore] at h
    split at h
    · exact ih h
    · split at h
      · exact (annotates_perform ev _).trans (ih h)
      · split_ifs at h
        exact (annotates_perform ev _).trans (ih h)

theorem runPreStore_error (h : runPreStore cfg c prev pre ev = .error e) :
    ∃ name cause, e = .failClosed name cause := by
  induction pre generalizing ev with
  | nil => cases h
  | cons p pre ih =>
    rw [runPreStore] at h
    split at h
    · exact ih h
    · dsimp only at h
      split at h
      · exact ih h
      · split_ifs at h
        · cases h
          exact ⟨_, _, rfl⟩
        · exact ih h

/-- A command cannot be planned if its diff cannot be applied, does not lead to an object, or its
kind is not known. -/
theorem planEvent_error (h : planEvent received cfg kind cmd cur = .error e) :
    (∃ cause, e = .invalidDiff cause) ∨ e = .resultNotObject ∨
      ∃ name, kind = .other name ∧ e = .unknownKind name := by
  cases kind with
  | state =>
    simp only [planEvent] at h
    split_ifs at h
  | diff =>
    simp only [planEvent] at h
    split_ifs at h
    · split at h
      · next hplan => cases hplan
      · split_ifs at h
    · split at h
      · next hplan =>
        cases h
        split at hplan
        · cases hplan
          exact .inl ⟨_, rfl⟩
        · cases hplan
        · cases hplan
          exact .inr (.inl rfl)
      · split_ifs at h
  | delete => cases h
  | other name =>
    cases h
    exact .inr (.inr ⟨name, rfl, rfl⟩)

theorem planEvent_write {newState : Fields} {deleted : Bool}
    (h : planEvent received cfg kind cmd cur = .ok (.write ev newState deleted)) :
    ∃ op changes, ev = buildEvent received cmd op changes := by
  cases kind with
  | state =>
    simp only [planEvent] at h
    split_ifs at h
    · cases h
    · cases h
      exact ⟨_, _, rfl⟩
  | diff =>
    simp only [planEvent] at h
    split_ifs at h
    · cases h
      exact ⟨_, _, rfl⟩
    all_goals
      split at h
      · cases h
      · split_ifs at h
        · cases h
        · cases h
          exact ⟨_, _, rfl⟩
  | delete =>
    cases h
    exact ⟨_, _, rfl⟩
  | other name => cases h

end Planning

namespace Write

variable (w : Write) (seen : List (Obs Storage))

/-- The collection written to. -/
abbrev coll : String := w.cmd.collection

/-- The entity written to. -/
abbrev eid : String := w.cmd.entityID

/-- What the write has read before it plans: the configuration and the current state, whose
version passes the lock. -/
structure Based (cfg : CollectionConfig) (cur : Option CurrentState) : Prop where
  config : Saw seen (.ensureCollection w.coll) (.ok cfg)
  current : SawCurrent seen w.coll w.eid cur
  lock : versionMatches w.cmd.expectedVersion (baseState cur).2 = true

/-- The pre-store hooks have turned one event into another. -/
def Hooked (cfg : CollectionConfig) (cur : Option CurrentState) (planned : Event)
    (r : Except IngestErr Event) : Prop :=
  if hasPreStore w.ing.pre cfg then
    ∃ last, SawLast seen w.coll w.eid last ∧
      runPreStore cfg w.coll ⟨last, cur⟩ w.ing.pre planned = r
  else r = .ok planned

/-- The event the write is about to append, with the state and flag it leads to. -/
structure Planned (cfg : CollectionConfig) (cur : Option CurrentState) (planned ev : Event)
    (newState : Fields) (deleted : Bool) : Prop extends w.Based seen cfg cur where
  plan : planEvent w.now.received cfg w.kind w.cmd cur = .ok (.write planned newState deleted)
  hooked : w.Hooked seen cfg cur planned (.ok ev)

/-- The calls that a write makes. -/
inductive Does : Call → Prop
  | ensure : Does (.ensureCollection w.coll)
  | read : Does (.getCurrent w.coll w.eid)
  | lastEvent : Does (.lastEvent w.coll w.eid)
  | lastVersion : Does (.lastVersion w.coll w.eid)
  | insert {cfg cur planned ev newState deleted last}
      (plan : w.Planned seen cfg cur planned ev newState deleted)
      (tail : Saw seen (.lastVersion w.coll w.eid) (.ok last))
      (first : Untouched seen w.coll) :
      Does (.insertEvent w.coll (ev.at w.now.stored last))
  | upsert {cfg cur planned ev newState deleted last}
      (plan : w.Planned seen cfg cur planned ev newState deleted)
      (stored : Saw seen (.insertEvent w.coll (ev.at w.now.stored last)) (.ok ()))
      (first : NoUpsert seen w.coll) :
      Does (.upsertCurrent w.coll ⟨w.eid, last + 1, ev.tsReceived, deleted, newState⟩)
  | save {cfg cur planned ev newState deleted last}
      (plan : w.Planned seen cfg cur planned ev newState deleted)
      (stored : Saw seen (.insertEvent w.coll (ev.at w.now.stored last)) (.ok ())) :
      Does (.saveSnapshot w.coll ⟨w.eid, last + 1, ev.tsReceived, deleted, newState⟩)

/-- The errors of reads that end a write: a missing current state or last event does not. -/
def Fatal : Call → StoreErr → Prop
  | .ensureCollection _, _ | .lastVersion _ _, _ => True
  | .getCurrent _ _, err | .lastEvent _ _, err => err ≠ .notFound
  | _, _ => False

/-- How a write ends. -/
inductive Ends : Except IngestErr IngestResult → List (Obs Storage) → Prop
  | noChange {seen cfg cur} (base : w.Based seen cfg cur)
      (plan : planEvent w.now.received cfg w.kind w.cmd cur = .ok .noChange)
      (none : Untouched seen w.coll) :
      Ends (.ok { entityID := w.eid, version := (baseState cur).2, noChanges := true }) seen
  | duplicate {seen cfg cur planned ev newState deleted last err}
      (plan : w.Planned seen cfg cur planned ev newState deleted)
      (refused : Saw seen (.insertEvent w.coll (ev.at w.now.stored last)) (.error err))
      (race : isDupKeyOn err .eventVersion = false) (index : isDupKeyOn err .eventID = true)
      (none : Untouched seen w.coll) :
      Ends (.ok { entityID := w.eid, version := (baseState cur).2, deduplicated := true }) seen
  | stored {seen cfg cur planned ev newState deleted last}
      (plan : w.Planned seen cfg cur planned ev newState deleted)
      (insert : Saw seen (.insertEvent w.coll (ev.at w.now.stored last)) (.ok ()))
      (only : ∀ ev', Saw seen (.insertEvent w.coll ev') (.ok ()) →
        ev' = ev.at w.now.stored last)
      (upsert : Saw seen (.upsertCurrent w.coll
        ⟨w.eid, last + 1, ev.tsReceived, deleted, newState⟩) (.ok ())) :
      Ends (.ok { entityID := w.eid, version := last + 1, changesCount := ev.changes.length,
                  op := some ev.op }) seen
  | stale {seen cfg cur planned ev newState deleted last err}
      (plan : w.Planned seen cfg cur planned ev newState deleted)
      (insert : Saw seen (.insertEvent w.coll (ev.at w.now.stored last)) (.ok ()))
      (only : ∀ ev', Saw seen (.insertEvent w.coll ev') (.ok ()) →
        ev' = ev.at w.now.stored last)
      (upsert : Saw seen (.upsertCurrent w.coll
        ⟨w.eid, last + 1, ev.tsReceived, deleted, newState⟩) (.error err)) :
      Ends (.error (.store err)) seen
  | locked {seen cfg cur} (config : Saw seen (.ensureCollection w.coll) (.ok cfg))
      (current : SawCurrent seen w.coll w.eid cur)
      (lock : versionMatches w.cmd.expectedVersion (baseState cur).2 = false)
      (none : Untouched seen w.coll) : Ends (.error .versionConflict) seen
  | exhausted {seen cfg cur planned ev newState deleted}
      (plan : w.Planned seen cfg cur planned ev newState deleted)
      (none : Untouched seen w.coll) : Ends (.error .versionConflict) seen
  | unplanned {seen cfg cur err} (base : w.Based seen cfg cur)
      (plan : planEvent w.now.received cfg w.kind w.cmd cur = .error err)
      (none : Untouched seen w.coll) : Ends (.error err) seen
  | rejected {seen cfg cur planned newState deleted err} (base : w.Based seen cfg cur)
      (plan : planEvent w.now.received cfg w.kind w.cmd cur = .ok (.write planned newState deleted))
      (hooked : w.Hooked seen cfg cur planned (.error err))
      (none : Untouched seen w.coll) : Ends (.error err) seen
  | unread {seen call err} (failed : Saw seen call (.error err)) (fatal : Fatal call err)
      (none : Untouched seen w.coll) : Ends (.error (.store err)) seen
  | refused {seen cfg cur planned ev newState deleted last err}
      (plan : w.Planned seen cfg cur planned ev newState deleted)
      (failed : Saw seen (.insertEvent w.coll (ev.at w.now.stored last)) (.error err))
      (index : ∀ i, isDupKeyOn err i = false)
      (none : Untouched seen w.coll) :
      Ends (.error (.appendFailed w.coll w.eid err)) seen

section

variable {w seen} {seen' : List (Obs Storage)}

/-- A write that has inserted an event has tried to refresh the current state, and returns the
version of the event unless that failed. -/
theorem Ends.of_inserted {r : Except IngestErr IngestResult} (h : w.Ends r seen) {x : Event}
    (hx : Saw seen (.insertEvent w.coll x) (.ok ())) :
    ∃ st reply, Saw seen (.upsertCurrent w.coll st) reply ∧
      ((∃ res, r = .ok res ∧ res.stored = true ∧ res.version = x.version) ∨
        ∃ err, reply = .error err) := by
  cases h with
  | stored plan insert only upsert =>
    rw [only x hx]
    exact ⟨_, _, upsert, .inl ⟨_, rfl, rfl, rfl⟩⟩
  | stale plan insert only upsert => exact ⟨_, _, upsert, .inr ⟨_, rfl⟩⟩
  | noChange base plan none => exact absurd hx (none.noInsert x)
  | duplicate plan refused race index none => exact absurd hx (none.noInsert x)
  | locked config current lock none => exact absurd hx (none.noInsert x)
  | exhausted plan none => exact absurd hx (none.noInsert x)
  | unplanned base plan none => exact absurd hx (none.noInsert x)
  | rejected base plan hooked none => exact absurd hx (none.noInsert x)
  | unread failed fatal none => exact absurd hx (none.noInsert x)
  | refused plan failed index none => exact absurd hx (none.noInsert x)

variable {cfg : CollectionConfig} {cur : Option CurrentState} {planned ev : Event}
  {newState : Fields} {deleted : Bool}

theorem Based.mono (h : w.Based seen cfg cur) (hs : seen ⊆ seen') : w.Based seen' cfg cur :=
  ⟨h.config.mono hs, h.current.mono hs, h.lock⟩

theorem Hooked.mono {r : Except IngestErr Event} (h : w.Hooked seen cfg cur planned r)
    (hs : seen ⊆ seen') : w.Hooked seen' cfg cur planned r := by
  unfold Hooked at h ⊢
  split_ifs at h ⊢
  · obtain ⟨last, hlast, hrun⟩ := h
    exact ⟨last, hlast.mono hs, hrun⟩
  · exact h

theorem Planned.mono (h : w.Planned seen cfg cur planned ev newState deleted)
    (hs : seen ⊆ seen') : w.Planned seen' cfg cur planned ev newState deleted :=
  ⟨h.toBased.mono hs, h.plan, h.hooked.mono hs⟩

theorem Planned.annotates (h : w.Planned seen cfg cur planned ev newState deleted) :
    planned.Annotates ev := by
  have hh := h.hooked
  unfold Hooked at hh
  split_ifs at hh
  · obtain ⟨last, -, hrun⟩ := hh
    exact annotates_runPreStore hrun
  · cases hh
    exact ⟨_, _, rfl⟩

theorem Planned.event (h : w.Planned seen cfg cur planned ev newState deleted) :
    ev.entityID = w.eid ∧ ev.eventID = w.cmd.eventID ∧ ev.op = planned.op ∧
      ev.changes = planned.changes := by
  obtain ⟨m, i, rfl⟩ := h.annotates
  obtain ⟨op, changes, rfl⟩ := planEvent_write h.plan
  exact ⟨rfl, rfl, rfl, rfl⟩

/-- An insertion is of a planned event, right above the last version read, and the first. -/
theorem Does.insert_inv {c : String} {x : Event} (h : w.Does seen (.insertEvent c x)) :
    c = w.coll ∧ ∃ cfg cur planned ev newState deleted last, x = ev.at w.now.stored last ∧
      w.Planned seen cfg cur planned ev newState deleted ∧
      Saw seen (.lastVersion w.coll w.eid) (.ok last) ∧ Untouched seen w.coll := by
  cases h with
  | insert plan tail first => exact ⟨rfl, _, _, _, _, _, _, _, rfl, plan, tail, first⟩

/-- The current state is refreshed once, to what an inserted event was planned for. -/
theorem Does.upsert_inv {c : String} {st : CurrentState} (h : w.Does seen (.upsertCurrent c st)) :
    c = w.coll ∧ NoUpsert seen w.coll ∧ ∃ cfg cur planned ev last,
      st = ⟨w.eid, last + 1, ev.tsReceived, st.deleted, st.state⟩ ∧
      w.Planned seen cfg cur planned ev st.state st.deleted ∧
      Saw seen (.insertEvent w.coll (ev.at w.now.stored last)) (.ok ()) := by
  cases h with
  | upsert plan stored first => exact ⟨rfl, first, _, _, _, _, _, rfl, plan, stored⟩

end

/-! ### The append loop -/

theorem Event.at_at (ev : Event) (stored : Time) (v v' : Nat) :
    (ev.at stored v).at stored v' = ev.at stored v' := by
  simp only [Event.at]
  split_ifs <;> simp_all

/-- How the append loop ends: the event is stored under the version above the last one read,
or nothing is stored and the reply that ended the loop is on record. -/
inductive Appends (ev : Event) :
    Except IngestErr Event → List (Obs Storage) → Prop
  | stored {seen' last} (grows : seen ⊆ seen')
      (insert : Saw seen' (.insertEvent w.coll (ev.at w.now.stored last)) (.ok ()))
      (only : ∀ ev', Saw seen' (.insertEvent w.coll ev') (.ok ()) →
        ev' = ev.at w.now.stored last) (first : NoUpsert seen' w.coll) :
      Appends ev (.ok (ev.at w.now.stored last)) seen'
  | duplicate {seen' last err} (grows : seen ⊆ seen') (none : Untouched seen' w.coll)
      (refused : Saw seen' (.insertEvent w.coll (ev.at w.now.stored last)) (.error err))
      (race : isDupKeyOn err .eventVersion = false) (index : isDupKeyOn err .eventID = true) :
      Appends ev (.error .duplicateEvent) seen'
  | exhausted {seen'} (grows : seen ⊆ seen') (none : Untouched seen' w.coll) :
      Appends ev (.error .versionConflict) seen'
  | unread {seen' err} (grows : seen ⊆ seen') (none : Untouched seen' w.coll)
      (failed : Saw seen' (.lastVersion w.coll w.eid) (.error err)) :
      Appends ev (.error (.store err)) seen'
  | refused {seen' last err} (grows : seen ⊆ seen') (none : Untouched seen' w.coll)
      (failed : Saw seen' (.insertEvent w.coll (ev.at w.now.stored last)) (.error err))
      (index : ∀ i, isDupKeyOn err i = false) :
      Appends ev (.error (.appendFailed w.coll w.eid err)) seen'

variable {w seen} {cfg : CollectionConfig} {cur : Option CurrentState} {planned ev : Event}
  {newState : Fields} {deleted : Bool}

private theorem appendLoop_along {x : Event} {seen' : List (Obs Storage)}
    (hp : w.Planned seen cfg cur planned ev newState deleted) (hs : seen ⊆ seen')
    (hnone : Untouched seen' w.coll) (n : Nat) (hx : x.entityID = ev.entityID)
    (hat : ∀ v, x.at w.now.stored v = ev.at w.now.stored v) :
    Along w.Does (w.Appends seen ev) (appendLoop w.coll w.now.stored n x) seen' := by
  induction n generalizing x seen' with
  | zero => exact .exhausted hs hnone
  | succ n ih =>
    have heid : x.entityID = w.eid := hx.trans hp.event.1
    rw [appendLoop, heid]
    refine Along.ask_bind_iff.mpr ⟨.lastVersion, fun r => ?_⟩
    have hnone' : Untouched (⟨.lastVersion w.coll w.eid, r⟩ :: seen') w.coll :=
      hnone.cons (by simp) (by simp)
    have hs' : seen ⊆ ⟨.lastVersion w.coll w.eid, r⟩ :: seen' := subset_cons_of_subset _ hs
    cases r with
    | error e => exact .unread hs' hnone' saw_self
    | ok last =>
      dsimp only
      rw [hat]
      refine Along.ask_bind_iff.mpr ⟨.insert (hp.mono hs') saw_self hnone', fun r => ?_⟩
      have hs'' : seen ⊆ ⟨.insertEvent w.coll (ev.at w.now.stored last), r⟩ ::
          ⟨.lastVersion w.coll w.eid, .ok last⟩ :: seen' := subset_cons_of_subset _ hs'
      cases r with
      | ok u =>
        -- nothing was inserted before, so this is the only event
        refine .stored hs'' saw_self (fun ev' hev' => ?_)
          fun st r hst => hnone'.noUpsert st r (hst.of_cons (by simp))
        rcases mem_cons.mp hev' with heq | hmem
        · cases heq
          rfl
        · exact absurd hmem (hnone'.noInsert ev')
      | error e =>
        have hnone'' : Untouched (⟨.insertEvent w.coll (ev.at w.now.stored last), .error e⟩ ::
            ⟨.lastVersion w.coll w.eid, .ok last⟩ :: seen') w.coll :=
          hnone'.cons (fun ev' heq => by cases heq) (by simp)
        simp only
        -- a version that is taken is a race, and the loop tries the next one
        split_ifs with hv hi
        · exact ih hs'' hnone'' rfl fun v => Event.at_at ev _ _ _
        · exact .duplicate hs'' hnone'' saw_self (by simpa using hv) hi
        · have hidx : ∀ i, isDupKeyOn e i = false := by
            intro i
            cases i
            · simpa using hv
            · simpa using hi
          exact .refused hs'' hnone'' saw_self hidx

/-! ### The whole write -/

private theorem prepare_along : Along w.Does (fun r seen => match r with
    | .error e => w.Ends (.error e) seen
    | .ok (cfg, cur) => Saw seen (.ensureCollection w.coll) (.ok cfg) ∧
        SawCurrent seen w.coll w.eid cur ∧ Untouched seen w.coll) (prepare w.cmd) [] := by
  -- reads leave the collection untouched
  have hnil : Untouched [] w.coll :=
    ⟨fun _ h => not_mem_nil h, fun _ _ h => not_mem_nil h⟩
  refine Along.ask_bind_iff.mpr ⟨.ensure, fun r => ?_⟩
  have hnone := hnil.cons (o := ⟨.ensureCollection w.coll, r⟩) (by simp) (by simp)
  cases r with
  | error e =>
    exact .unread saw_self trivial hnone
  | ok cfg =>
    refine Along.bind_iff.mpr (Along.ask_bind_iff.mpr ⟨.read, fun r => ?_⟩)
    have hnone' := hnone.cons (o := ⟨.getCurrent w.coll w.eid, r⟩) (by simp) (by simp)
    have hcfg : Saw (⟨.getCurrent w.coll w.eid, r⟩ :: [⟨.ensureCollection w.coll, .ok cfg⟩])
        (.ensureCollection w.coll) (.ok cfg) := mem_cons_of_mem _ saw_self
    cases r with
    | ok cur => exact ⟨hcfg, saw_self, hnone'⟩
    | error e =>
      cases e with
      | notFound => exact ⟨hcfg, saw_self, hnone'⟩
      | dupKey text => exact .unread saw_self (by simp [Fatal]) hnone'
      | failed => exact .unread saw_self (by simp [Fatal]) hnone'

private theorem preStore_along (hb : w.Based seen cfg cur)
    (hplan : planEvent w.now.received cfg w.kind w.cmd cur =
      .ok (.write planned newState deleted)) (hnone : Untouched seen w.coll) :
    Along w.Does (fun r seen => match r with
      | .error e => w.Ends (.error e) seen
      | .ok ev => w.Planned seen cfg cur planned ev newState deleted ∧ Untouched seen w.coll)
      (preStore w.ing cfg w.cmd planned cur) seen := by
  rw [preStore]
  split_ifs with hpre
  · refine Along.bind_iff.mpr (Along.ask_bind_iff.mpr ⟨.lastEvent, fun r => ?_⟩)
    have hnone' := hnone.cons (o := ⟨.lastEvent w.coll w.eid, r⟩) (by simp) (by simp)
    have hb' := hb.mono (subset_cons_self (⟨.lastEvent w.coll w.eid, r⟩ : Obs Storage) seen)
    -- with the last event read, the hooks decide
    have key : ∀ last, SawLast (⟨.lastEvent w.coll w.eid, r⟩ :: seen) w.coll w.eid last →
        Along w.Does (fun r seen => match r with
          | .error e => w.Ends (.error e) seen
          | .ok ev => w.Planned seen cfg cur planned ev newState deleted ∧
              Untouched seen w.coll)
          (.ret (runPreStore cfg w.coll ⟨last, cur⟩ w.ing.pre planned))
          (⟨.lastEvent w.coll w.eid, r⟩ :: seen) := by
      intro last hlast
      have hhook (x : Except IngestErr Event)
          (hx : runPreStore cfg w.coll ⟨last, cur⟩ w.ing.pre planned = x) :
          w.Hooked (⟨.lastEvent w.coll w.eid, r⟩ :: seen) cfg cur planned x := by
        rw [Hooked, if_pos hpre]
        exact ⟨last, hlast, hx⟩
      rw [Along.ret_iff]
      cases hrun : runPreStore cfg w.coll ⟨last, cur⟩ w.ing.pre planned with
      | error e => exact .rejected hb' hplan (hhook _ hrun) hnone'
      | ok ev => exact ⟨⟨hb', hplan, hhook _ hrun⟩, hnone'⟩
    cases r with
    | ok last => exact key (some last) saw_self
    | error e =>
      cases e with
      | notFound => exact key none saw_self
      | dupKey text => exact .unread saw_self (by simp [Fatal]) hnone'
      | failed => exact .unread saw_self (by simp [Fatal]) hnone'
  · exact ⟨⟨hb, hplan, by rw [Hooked, if_neg hpre]⟩, hnone⟩

private theorem commitEvent_along (hp : w.Planned seen cfg cur planned ev newState deleted)
    (hnone : Untouched seen w.coll) :
    Along w.Does (fun r seen => match r with
      | .error .duplicateEvent => w.Ends (.ok
          { entityID := w.eid, version := (baseState cur).2, deduplicated := true }) seen
      | .error e => w.Ends (.error e) seen
      | .ok ev' => ∃ last, ev' = ev.at w.now.stored last ∧
          w.Planned seen cfg cur planned ev newState deleted ∧
          Saw seen (.insertEvent w.coll ev') (.ok ()) ∧
          (∀ x, Saw seen (.insertEvent w.coll x) (.ok ()) → x = ev') ∧
          Saw seen (.upsertCurrent w.coll
            ⟨w.eid, last + 1, ev.tsReceived, deleted, newState⟩) (.ok ()))
      (commitEvent w.now.stored w.cmd ev newState deleted) seen := by
  refine Along.bind_iff.mpr
    ((appendLoop_along hp (List.Subset.refl _) hnone maxAppendRetries rfl fun _ => rfl).mono ?_)
  rintro r seen' (⟨hs, hins, honly, hfirst⟩ | ⟨hs, hnone', href, hrace, hidx⟩ | ⟨hs, hnone'⟩ |
    ⟨hs, hnone', hfail⟩ | ⟨hs, hnone', hfail, hidx⟩)
  · rename_i last
    have hdo : w.Does seen' (.upsertCurrent w.coll
        ⟨w.eid, last + 1, ev.tsReceived, deleted, newState⟩) := .upsert (hp.mono hs) hins hfirst
    refine Along.ask_bind_iff.mpr ⟨hdo, fun r => ?_⟩
    have hs' : seen ⊆ _ :: seen' := subset_cons_of_subset
      (⟨.upsertCurrent w.coll ⟨w.eid, last + 1, ev.tsReceived, deleted, newState⟩, r⟩ :
        Obs Storage) hs
    have honly' : ∀ x, Saw (⟨.upsertCurrent w.coll
        ⟨w.eid, last + 1, ev.tsReceived, deleted, newState⟩, r⟩ :: seen')
        (.insertEvent w.coll x) (.ok ()) → x = ev.at w.now.stored last :=
      fun x hx => honly x (hx.of_cons (by simp))
    cases r with
    | error e => exact .stale (hp.mono hs') (mem_cons_of_mem _ hins) honly' saw_self
    | ok u => exact ⟨last, rfl, hp.mono hs', mem_cons_of_mem _ hins, honly', saw_self⟩
  · exact .duplicate (hp.mono hs) href hrace hidx hnone'
  · exact .exhausted (hp.mono hs) hnone'
  · exact .unread hfail trivial hnone'
  · exact .refused (hp.mono hs) hfail hidx hnone'

/-- **What a write does.** Whatever its calls are answered, a write makes only the calls of
`Does` and ends as `Ends` says. -/
theorem along (w : Write) : Along w.Does w.Ends w.prog [] := by
  refine Along.bind_iff.mpr (prepare_along.mono ?_)
  rintro (e | ⟨cfg, cur⟩) seen hpre
  · exact hpre
  obtain ⟨hcfg, hcur, hnone⟩ := hpre
  by_cases hlock : versionMatches w.cmd.expectedVersion (baseState cur).2 = true
  · have hb : w.Based seen cfg cur := ⟨hcfg, hcur, hlock⟩
    simp only [hlock, not_true_eq_false, if_false]
    cases hplan : planEvent w.now.received cfg w.kind w.cmd cur with
    | error e => exact .unplanned hb hplan hnone
    | ok plan =>
      cases plan with
      | noChange => exact .noChange hb hplan hnone
      | write planned newState deleted =>
        refine Along.bind_iff.mpr ((preStore_along hb hplan hnone).mono ?_)
        rintro (e | ev) seen' hev
        · exact hev
        obtain ⟨hp, hnone'⟩ := hev
        refine Along.bind_iff.mpr ((commitEvent_along hp hnone').mono ?_)
        rintro (e | ev') seen'' hcommit
        · cases e <;> exact hcommit
        obtain ⟨last, rfl, hp'', hins, honly, hups⟩ := hcommit
        -- the snapshot is saved or not; either way the write has succeeded
        have hdo : w.Does seen'' (.saveSnapshot w.coll
            ⟨w.eid, last + 1, ev.tsReceived, deleted, newState⟩) := .save hp'' hins
        have hend : w.Ends (.ok { entityID := w.eid, version := last + 1,
                                  changesCount := ev.changes.length, op := some ev.op }) seen'' :=
          .stored hp'' hins honly hups
        refine Along.bind_iff.mpr ?_
        rw [buildSnapshot]
        split_ifs with hsnap
        · refine Along.ask_bind_iff.mpr ⟨hdo, fun r => ?_⟩
          have hsub := subset_cons_self (⟨.saveSnapshot w.coll
            ⟨w.eid, last + 1, ev.tsReceived, deleted, newState⟩, r⟩ : Obs Storage) seen''
          have hend' : w.Ends (.ok { entityID := w.eid, version := last + 1,
                                     changesCount := ev.changes.length, op := some ev.op })
              (⟨.saveSnapshot w.coll ⟨w.eid, last + 1, ev.tsReceived, deleted, newState⟩, r⟩ ::
                seen'') :=
            .stored (hp''.mono hsub) (hins.mono hsub)
              (fun x hx => honly x (hx.of_cons (by simp))) (hups.mono hsub)
          exact hend'
        · exact hend
  · simp only [hlock]
    exact .locked hcfg hcur (by simpa using hlock) hnone

end Write

end Letopis
