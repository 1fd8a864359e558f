import Letopis.ForMathlib.LastWrite
import Letopis.Service.IngestTrace

/-!
# Plugins that fail open

A pre-store plugin is a program over the draft of an event: it reads the draft, sets the integrity
block, puts metadata, and can stop with an error at any point. All plugins of a host work on the
same event. If a plugin fails and is not fail-closed, the host counts the error and goes on with the
next one. It does not undo what the plugin has written by then, so an event can be stored with a
part of the contribution of a plugin that failed.

What should be stored is what the plugins that did not fail make of the event (`runIsolated`). It is
what is stored exactly if every write of a plugin that failed is written over later, or makes no
difference (`failOpen_exact_iff`).
-/

namespace Letopis

open List

/-! ### Programs -/

/-- A program over the getters and setters of a draft. -/
inductive HookProg where
  | done
  | fail (err : String)
  | read (k : EventDraft → HookProg)
  | edit (e : DraftEdit) (k : HookProg)

namespace HookProg

/-- Run a program on the event, and return the error it stops with. -/
def run (collection : String) : HookProg → Event → Event × Option String
  | done, ev => (ev, none)
  | fail err, ev => (ev, some err)
  | read k, ev => (k (newDraft collection ev)).run collection ev
  | edit e k, ev => k.run collection (e.perform ev)

/-- The edits that a program makes, and the error it stops with. -/
def hook : HookProg → EventDraft → List DraftEdit × Option String
  | done, _ => ([], none)
  | fail err, _ => ([], some err)
  | read k, d => (k d).hook d
  | edit e k, d => (e :: (k.hook d).1, (k.hook d).2)

end HookProg

/-- A pre-store plugin as a program. -/
structure PluginProgram where
  name : String
  /-- The hook, given what it can read of the entity. -/
  preStore : EntityView → HookProg

/-- The plugin by its edits and its error. -/
def PluginProgram.plugin (p : PluginProgram) : PreStorePlugin :=
  ⟨p.name, fun d prev => (p.preStore prev).hook d⟩

/-- Run the enabled plugins in order, all on one event. -/
def runPrograms (cfg : CollectionConfig) (collection : String) (prev : EntityView) :
    List PluginProgram → Event → Except IngestErr Event
  | [], ev => .ok ev
  | p :: ps, ev =>
    match enabledConfig cfg p.plugin with
    | none => runPrograms cfg collection prev ps ev
    | some pc =>
      match (p.preStore prev).run collection ev with
      | (ev', none) => runPrograms cfg collection prev ps ev'
      | (ev', some err) =>
        if pc.failMode = .failClosed then .error (.failClosed p.name err)
        -- the event has what the plugin wrote before it failed
        else runPrograms cfg collection prev ps ev'

/-- Run, in order, the enabled plugins that do not fail: the event is left alone by one that
does. -/
def runIsolated (cfg : CollectionConfig) (collection : String) (prev : EntityView) :
    List PluginProgram → Event → Event
  | [], ev => ev
  | p :: ps, ev =>
    match enabledConfig cfg p.plugin with
    | none => runIsolated cfg collection prev ps ev
    | some _ =>
      match (p.preStore prev).run collection ev with
      | (ev', none) => runIsolated cfg collection prev ps ev'
      | (_, some _) => runIsolated cfg collection prev ps ev

/-! ### Edits -/

private theorem newDraft_perform (collection : String) (ev : Event) (e : DraftEdit) :
    newDraft collection (e.perform ev) = newDraft collection ev := by
  cases e <;> rfl

private theorem newDraft_foldl (collection : String) (ev : Event) (edits : List DraftEdit) :
    newDraft collection (edits.foldl DraftEdit.perform ev) = newDraft collection ev := by
  induction edits generalizing ev with
  | nil => rfl
  | cons e edits ih => exact (ih _).trans (newDraft_perform collection ev e)

/-- A program cannot read what it writes, so its edits are those for the draft at the start. -/
theorem HookProg.run_eq (collection : String) (prog : HookProg) (ev : Event) :
    prog.run collection ev =
      ((prog.hook (newDraft collection ev)).1.foldl DraftEdit.perform ev,
        (prog.hook (newDraft collection ev)).2) := by
  induction prog generalizing ev with
  | done | fail => rfl
  | read k ih => exact ih _ ev
  | edit e k ih =>
    rw [run, ih, newDraft_perform]
    rfl

theorem runPrograms_eq (cfg : CollectionConfig) (collection : String) (prev : EntityView)
    (ps : List PluginProgram) (ev : Event) :
    runPrograms cfg collection prev ps ev =
      runPreStore cfg collection prev (ps.map PluginProgram.plugin) ev := by
  induction ps generalizing ev with
  | nil => rfl
  | cons p ps ih =>
    rw [runPrograms, map_cons, runPreStore]
    cases enabledConfig cfg p.plugin with
    | none => exact ih ev
    | some pc =>
      simp only [HookProg.run_eq, PluginProgram.plugin]
      cases ((p.preStore prev).hook (newDraft collection ev)).2 with
      | none => exact ih _
      | some err => simp only [ih]

/-- An edit, and whether the plugin that makes it fails. -/
structure TaggedEdit where
  failed : Bool
  edit : DraftEdit

/-- The edits of the enabled plugins, in order. -/
def taggedEdits (cfg : CollectionConfig) (prev : EntityView) (ps : List PluginProgram)
    (d : EventDraft) : List TaggedEdit :=
  ps.flatMap fun p =>
    if (enabledConfig cfg p.plugin).isSome then
      ((p.preStore prev).hook d).1.map (⟨((p.preStore prev).hook d).2.isSome, ·⟩)
    else []

/-- The event with some edits carried out. -/
def performAll (ev : Event) (ts : List TaggedEdit) : Event :=
  ts.foldl (fun ev t => t.edit.perform ev) ev

private theorem performAll_append (ev : Event) (ts us : List TaggedEdit) :
    performAll ev (ts ++ us) = performAll (performAll ev ts) us := foldl_append

private theorem performAll_map (ev : Event) (failed : Bool) (edits : List DraftEdit) :
    performAll ev (edits.map (⟨failed, ·⟩)) = edits.foldl DraftEdit.perform ev := by
  rw [performAll, foldl_map]

section Runs

variable {cfg : CollectionConfig} {c : String} {prev : EntityView}

private theorem eq_performAll_of_runPrograms {ps : List PluginProgram} {ev ev' : Event}
    (h : runPrograms cfg c prev ps ev = .ok ev') :
    ev' = performAll ev (taggedEdits cfg prev ps (newDraft c ev)) := by
  induction ps generalizing ev with
  | nil =>
    cases h
    rfl
  | cons p ps ih =>
    rw [runPrograms] at h
    rw [taggedEdits, flatMap_cons, performAll_append, ← taggedEdits]
    cases hpc : enabledConfig cfg p.plugin with
    | none =>
      rw [hpc] at h
      exact ih h
    | some pc =>
      simp only [hpc, HookProg.run_eq] at h
      have hdraft := newDraft_foldl c ev ((p.preStore prev).hook (newDraft c ev)).1
      rw [if_pos Option.isSome_some, performAll_map]
      cases herr : ((p.preStore prev).hook (newDraft c ev)).2 with
      | none =>
        simp only [herr] at h
        rw [ih h, hdraft]
      | some err =>
        simp only [herr] at h
        split_ifs at h
        rw [ih h, hdraft]

private theorem runIsolated_eq (ps : List PluginProgram) (ev : Event) :
    runIsolated cfg c prev ps ev =
      performAll ev ((taggedEdits cfg prev ps (newDraft c ev)).filter (!·.failed)) := by
  induction ps generalizing ev with
  | nil => rfl
  | cons p ps ih =>
    rw [runIsolated, taggedEdits, flatMap_cons, filter_append, performAll_append,
      ← taggedEdits]
    cases hpc : enabledConfig cfg p.plugin with
    | none => exact ih ev
    | some pc =>
      simp only [HookProg.run_eq]
      have hdraft := newDraft_foldl c ev ((p.preStore prev).hook (newDraft c ev)).1
      rw [if_pos Option.isSome_some]
      cases herr : ((p.preStore prev).hook (newDraft c ev)).2 with
      | none =>
        rw [filter_eq_self.mpr (by simp), performAll_map]
        exact (ih _).trans (by rw [hdraft])
      | some err =>
        rw [filter_eq_nil_iff.mpr (by simp)]
        exact ih ev

end Runs

/-! ### Slots -/

/-- A place of the event that an edit writes to. -/
inductive Slot where
  | integrity
  | key (k : String)
  deriving DecidableEq

/-- The place that an edit writes to. -/
def DraftEdit.slot : DraftEdit → Slot
  | .setIntegrity _ _ => .integrity
  | .putMeta k _ => .key k

/-- What an edit leaves in its slot. -/
def DraftEdit.written : DraftEdit → Option (Integrity ⊕ Json)
  | .setIntegrity hash prevHash => some (.inl ⟨hash, prevHash⟩)
  | .putMeta _ v => some (.inr v)

/-- What is in the slots of an event. -/
def Event.slots (ev : Event) : Slot → Option (Integrity ⊕ Json)
  | .integrity => ev.integrity.map .inl
  | .key k => (ev.metadata.lookup k).map .inr

private theorem slots_perform (ev : Event) (e : DraftEdit) :
    (e.perform ev).slots = Function.update ev.slots e.slot e.written := by
  funext s
  cases e with
  | setIntegrity hash prevHash =>
    cases s with
    | integrity => rfl
    | key k => rfl
  | putMeta key value =>
    cases s with
    | integrity => rfl
    | key k =>
      by_cases hk : k = key
      · subst hk
        simp [DraftEdit.slot, DraftEdit.perform, Event.slots, SortedAssoc.lookup_insert,
          DraftEdit.written]
      · have hne : Slot.key k ≠ .key key := fun heq => hk (Slot.key.inj heq)
        simp [DraftEdit.slot, DraftEdit.perform, Event.slots, SortedAssoc.lookup_insert, hk, hne]

private theorem slots_performAll (ev : Event) (ts : List TaggedEdit) :
    (performAll ev ts).slots =
      LastWrite.assign (fun t : TaggedEdit => t.edit.slot) (fun t => t.edit.written) ev.slots
        ts := by
  induction ts generalizing ev with
  | nil => rfl
  | cons t ts ih =>
    rw [performAll, foldl_cons, ← performAll, ih, slots_perform]
    rfl

private theorem sorted_perform {ev : Event} (h : SortedAssoc.Sorted ev.metadata) (e : DraftEdit) :
    SortedAssoc.Sorted (e.perform ev).metadata := by
  cases e with
  | setIntegrity => exact h
  | putMeta => exact SortedAssoc.sorted_insert h

private theorem eq_of_slots_eq {ev ev₁ ev₂ : Event} (h₁ : ev.Annotates ev₁) (h₂ : ev.Annotates ev₂)
    (hs₁ : SortedAssoc.Sorted ev₁.metadata) (hs₂ : SortedAssoc.Sorted ev₂.metadata)
    (h : ev₁.slots = ev₂.slots) : ev₁ = ev₂ := by
  obtain ⟨m₁, i₁, rfl⟩ := h₁
  obtain ⟨m₂, i₂, rfl⟩ := h₂
  have hm : m₁ = m₂ := SortedAssoc.ext_lookup hs₁ hs₂ fun k =>
    Option.map_injective Sum.inr_injective (congrFun h (.key k))
  have hi : i₁ = i₂ := Option.map_injective Sum.inl_injective (congrFun h .integrity)
  rw [hm, hi]

private theorem sorted_performAll {ev : Event} (h : SortedAssoc.Sorted ev.metadata)
    (ts : List TaggedEdit) : SortedAssoc.Sorted (performAll ev ts).metadata := by
  induction ts generalizing ev with
  | nil => exact h
  | cons t ts ih => exact ih (sorted_perform h t.edit)

private theorem annotates_performAll (ev : Event) (ts : List TaggedEdit) :
    ev.Annotates (performAll ev ts) := by
  have h := annotates_perform ev (ts.map TaggedEdit.edit)
  rwa [foldl_map] at h

/-- **Plugins that fail open.** If the host returns no error, the event is the one that the plugins
make of it that do not fail, exactly if an edit of a plugin that fails changes nothing there, unless
it is written over by a later edit. -/
theorem failOpen_exact_iff {cfg : CollectionConfig} {c : String} {prev : EntityView}
    {ps : List PluginProgram} {ev ev' : Event} (hmeta : SortedAssoc.Sorted ev.metadata)
    (h : runPrograms cfg c prev ps ev = .ok ev') :
    ev' = runIsolated cfg c prev ps ev ↔
      ∀ t, LastWrite.Lingers (fun t : TaggedEdit => t.edit.slot) (!·.failed)
          (taggedEdits cfg prev ps (newDraft c ev)) t →
        t.edit.perform (runIsolated cfg c prev ps ev) = runIsolated cfg c prev ps ev := by
  rw [eq_performAll_of_runPrograms h, runIsolated_eq]
  set ts := taggedEdits cfg prev ps (newDraft c ev)
  set kept := performAll ev (ts.filter (!·.failed)) with hkept
  have hslots : performAll ev ts = kept ↔ (performAll ev ts).slots = kept.slots :=
    ⟨congrArg Event.slots, eq_of_slots_eq (annotates_performAll ev _) (annotates_performAll ev _)
      (sorted_performAll hmeta _) (sorted_performAll hmeta _)⟩
  rw [hslots, hkept, slots_performAll, slots_performAll, LastWrite.assign_filter_eq_iff,
    ← slots_performAll, ← hkept]
  refine forall₂_congr fun t _ => ?_
  have hedit : t.edit.perform kept = kept ↔ (t.edit.perform kept).slots = kept.slots :=
    ⟨congrArg Event.slots, eq_of_slots_eq (annotates_perform kept [t.edit]) ⟨_, _, rfl⟩
      (sorted_perform (sorted_performAll hmeta _) _) (sorted_performAll hmeta _)⟩
  rw [hedit, slots_perform, Function.update_eq_self_iff, eq_comm]

section Samples

/-- A plugin that fails at once. -/
def failingPlugin : PluginProgram := ⟨"pii", fun _ => .fail "unavailable"⟩

/-- A plugin that puts metadata and then fails. -/
def halfwayPlugin : PluginProgram :=
  ⟨"pii", fun _ => .edit (.putMeta "masked" (.bool true)) (.fail "unavailable")⟩

/-- A collection where it is fail-open. -/
def failOpenConfig : CollectionConfig := { plugins := [("pii", ⟨true, .failOpen⟩)] }

/-- The first event of an order. -/
def orderCreated : Event := { entityID := "o1", op := .create }

/-- A plugin that fails before its first edit. -/
theorem failOpen_exact_iff_failing :
    runPrograms failOpenConfig "orders" ⟨none, none⟩ [failingPlugin] orderCreated =
      .ok (runIsolated failOpenConfig "orders" ⟨none, none⟩ [failingPlugin] orderCreated) := by
  have hrun : runPrograms failOpenConfig "orders" ⟨none, none⟩ [failingPlugin] orderCreated =
    .ok orderCreated := rfl
  have hmeta : SortedAssoc.Sorted orderCreated.metadata := SortedAssoc.sorted_nil
  refine hrun.trans (congrArg Except.ok ((failOpen_exact_iff hmeta hrun).mpr ?_))
  rintro t ⟨before, after, hsplit, -⟩
  exact absurd hsplit.symm (append_ne_nil_of_right_ne_nil _ (cons_ne_nil _ _))

/-- The event is stored with what a plugin has put before it failed. -/
theorem failed_edit_stored :
    runPrograms failOpenConfig "orders" ⟨none, none⟩ [halfwayPlugin] orderCreated =
        .ok { orderCreated with metadata := [("masked", .bool true)] } ∧
      runIsolated failOpenConfig "orders" ⟨none, none⟩ [halfwayPlugin] orderCreated =
        orderCreated :=
  ⟨rfl, rfl⟩

end Samples

end Letopis
