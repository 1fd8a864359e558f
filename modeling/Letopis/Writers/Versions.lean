import Letopis.Service.Batch
import Letopis.Service.IngestTrace
import Letopis.Storage.Histories

/-!
# Versions are gap-free

Two schemes assign versions: the append loop takes one above the last stored version it read,
a batch counts up from the current state it loaded. Neither sees what the other does in
between. What they have in common is a discipline (`Disciplined`): a program inserts an event
only under the successor of a version that it knows to be *reached*, and refreshes a current
state only to a version it knows to be reached. Reached are zero, a last version it read, the
version of a current state it loaded and the version of an event it inserted itself.

A reached version stays at most the last stored one, whatever happens in between, so a
disciplined insertion either fills the next free version or is refused by the `{eid, v}`
index. Hence the versions stored for an entity are `1, ..., n` in insertion order and the
current state never runs ahead of them, for every interleaving of any number of writes and
batches and every pattern of storage failures.
-/

namespace Letopis

open Interleaving List Function

/-! ### Current states and histories -/

theorem baseState_some_version (st : CurrentState) : (baseState (some st)).2 = st.version := by
  rw [baseState]
  split_ifs <;> rfl

variable {db : Db} {c : String} {seen seen' : List (Obs Storage)}

theorem Db.Sequenced.curVersion_le_top {e : String} (h : db.Sequenced c e) :
    db.curVersion c e ≤ db.top c e := by
  rw [h.top_eq, Db.curVersion]
  cases hcur : (db c).current e with
  | none => exact Nat.zero_le _
  | some st =>
    rw [baseState_some_version]
    exact h.current st hcur

/-! ### The discipline -/

/-- A version of the entity that the program knows to be reached. -/
def Reached (seen : List (Obs Storage)) (c e : String) (v : Nat) : Prop :=
  v = 0 ∨ Saw seen (.lastVersion c e) (.ok v) ∨
    (∃ st, Saw seen (.getCurrent c e) (.ok st) ∧ st.version = v) ∨
    ∃ ev, Saw seen (.insertEvent c ev) (.ok ()) ∧ ev.entityID = e ∧ ev.version = v

theorem Reached.mono {e : String} {v : Nat} (h : Reached seen c e v) (hs : seen ⊆ seen') :
    Reached seen' c e v := by
  rcases h with rfl | h | ⟨st, h, hv⟩ | ⟨ev, h, he⟩
  · exact .inl rfl
  · exact .inr (.inl (h.mono hs))
  · exact .inr (.inr (.inl ⟨st, h.mono hs, hv⟩))
  · exact .inr (.inr (.inr ⟨ev, h.mono hs, he⟩))

/-- Events are inserted right above, and current states refreshed to, reached versions. -/
def Disciplined (seen : List (Obs Storage)) : Call → Prop
  | .insertEvent c ev => ∃ v, ev.version = v + 1 ∧ Reached seen c ev.entityID v
  | .upsertCurrent c st => Reached seen c st.entityID st.version
  | _ => True

/-- What an observation says about the versions reached. -/
structure VersionFact (o : Obs Storage) (db : Db) : Prop where
  tail : ∀ c e v, o = ⟨.lastVersion c e, .ok v⟩ → v ≤ db.top c e
  loaded : ∀ c e st, o = ⟨.getCurrent c e, .ok st⟩ → st.version ≤ db.top c e
  inserted : ∀ c ev, o = ⟨.insertEvent c ev, .ok ()⟩ → ev.version ≤ db.top c ev.entityID

theorem VersionFact.mono {o : Obs Storage} {db' : Db} (hle : ∀ c e, db.top c e ≤ db'.top c e)
    (h : VersionFact o db) : VersionFact o db' :=
  ⟨fun c e v ho => (h.tail c e v ho).trans (hle c e),
    fun c e st ho => (h.loaded c e st ho).trans (hle c e),
    fun c ev ho => (h.inserted c ev ho).trans (hle c ev.entityID)⟩

theorem Reached.le_top {e : String} {v : Nat} (h : Reached seen c e v)
    (hf : ∀ o ∈ seen, VersionFact o db) : v ≤ db.top c e := by
  rcases h with rfl | h | ⟨st, h, rfl⟩ | ⟨ev, h, rfl, rfl⟩
  · exact Nat.zero_le _
  · exact (hf _ h).tail _ _ _ rfl
  · exact (hf _ h).loaded _ _ _ rfl
  · exact (hf _ h).inserted _ _ rfl

/-- A disciplined insertion that the version index admits takes the next version. -/
theorem Disciplined.version_eq {e : String} {ev : Event} (h : Disciplined seen (.insertEvent c ev))
    (hf : ∀ o ∈ seen, VersionFact o db) (hseq : db.Sequenced c e) (he : ev.entityID = e)
    (hfree : db.VersionFree c ev) : ev.version = (db.hist c e).length + 1 := by
  obtain ⟨v, hv, hreach⟩ := h
  have hle : v ≤ db.top c e := he ▸ hreach.le_top hf
  exact hseq.version_eq he hfree (by omega) (by omega)

/-- The ledger of versions: gap-free histories, and what the programs know of them. -/
def versionLedger (ι : Type) : Ledger ι Storage Db where
  inv db := ∀ c e, db.Sequenced c e
  fact _ := VersionFact

/-- **One disciplined call.** Whatever its fault, it keeps every history gap-free and every
current state behind its history. -/
theorem versionLedger_sound {ι : Type} (srv : Server) : (versionLedger ι).Sound (handle srv)
    (fun _ => Disciplined) (fun _ _ _ _ _ => True) := by
  intro i seen call f db hcall _ hinv hfacts
  have hmono : ∀ c e, db.top c e ≤ (handle srv call f db).2.top c e := top_le_handle
  have hinv' : ∀ c e, (handle srv call f db).2.Sequenced c e := by
    intro c e
    have hseq := hinv c e
    rcases hist_handle srv call f db c e with
      heq | ⟨ev, rfl, he, -, hfree, -, happ⟩
    · -- the history stays; the current state may be refreshed to a reached version
      refine ⟨by rw [heq]; exact hseq.versions, fun st hst => ?_⟩
      rw [heq]
      rcases current_handle srv call f db c e with hcur | ⟨st', rfl, he, -, hst'⟩
      · exact hseq.current st (hcur ▸ hst)
      · rw [hst'] at hst
        cases hst
        rw [← hseq.top_eq, ← he]
        exact Reached.le_top hcall hfacts
    · -- the history grows by the next version
      have hnext := hcall.version_eq hfacts hseq he hfree
      refine hseq.concat happ hnext fun st hst => .inl ?_
      rcases current_handle srv (.insertEvent c ev) f db c e with hcur | ⟨st', heq, -⟩
      · exact hcur ▸ hst
      · cases heq
  refine ⟨hinv', ⟨fun c e v ho => ?_, fun c e st ho => ?_, fun c ev ho => ?_⟩,
    fun _ o ho => ho.mono hmono⟩
  · obtain ⟨rfl, hr⟩ := Sigma.mk.inj_iff.mp ho
    rw [lastVersion_ok (eq_of_heq hr)]
    exact hmono c e
  · obtain ⟨rfl, hr⟩ := Sigma.mk.inj_iff.mp ho
    refine le_trans ?_ (hmono c e)
    rw [(hinv c e).top_eq]
    exact (hinv c e).current st (getCurrent_ok (eq_of_heq hr))
  · obtain ⟨rfl, hr⟩ := Sigma.mk.inj_iff.mp ho
    rw [(insertEvent_ok (eq_of_heq hr)).2.2.2]
    exact Db.version_le_top (by simp [Db.hist_append])

theorem versionLedger_run {ι α : Type} [DecidableEq ι] (srv : Server) {p : ι → Prog Storage α}
    (hp : ∀ i, Along Disciplined (fun _ _ => True) (p i) []) (hdb : ∀ c e, db.Sequenced c e)
    (sched : List (ι × Fault)) :
    (versionLedger ι).Holds ((Config.initial db p).run (handle srv) sched) := by
  have hfollows : (Config.initial db p).Follows (fun _ => Disciplined) (fun _ _ _ => True) := hp
  exact (Ledger.holds_initial (L := versionLedger ι) hdb p).run (versionLedger_sound srv) hfollows
    Config.meets_true

/-! ### Single writes are disciplined -/

theorem Write.Does.disciplined {w : Write} {call : Call} (h : w.Does seen call) :
    Disciplined seen call := by
  cases h with
  | insert plan tail first => exact ⟨_, rfl, .inr (.inl (plan.event.1 ▸ tail))⟩
  | upsert plan stored first => exact .inr (.inr (.inr ⟨_, stored, plan.event.1, rfl⟩))
  | ensure | read | lastEvent | lastVersion | save => trivial

theorem Write.disciplined (w : Write) : Along Disciplined (fun _ _ => True) w.prog [] :=
  w.along.imp (fun _ _ h => h.disciplined) fun _ _ _ => trivial

/-- What the calls keep holds after every run, with the versions. -/
theorem ledger_run {ι : Type} [DecidableEq ι] {srv : Server} {writes : ι → Write}
    {L : Ledger ι Storage Db} {C : ι → List (Obs Storage) → Call → Fault → Db → Prop}
    (hL : L.SoundOver (handle srv) (versionLedger ι) (fun i => (writes i).Does) C)
    (hdb : ∀ c e, db.Sequenced c e) (hinv : L.inv db) {sched : List (ι × Fault)}
    (hm : (Config.initial db fun i => (writes i).prog).Meets (handle srv) C sched) :
    (L.and (versionLedger ι)).Holds
      ((Config.initial db fun i => (writes i).prog).run (handle srv) sched) := by
  have hfollows : (Config.initial db fun i => (writes i).prog).Follows
      (fun i => (writes i).Does) (fun i => (writes i).Ends) := fun i => (writes i).along
  have hversions : (versionLedger ι).Sound (handle srv) (fun i => (writes i).Does) C :=
    (versionLedger_sound srv).imp (fun _ _ _ h => h.disciplined) fun _ _ _ _ _ _ => trivial
  have hstart := Ledger.holds_initial (L := L.and (versionLedger ι)) ⟨hdb, hinv⟩
    fun i => (writes i).prog
  exact hstart.run (hversions.and hL) hfollows hm

/-! ### Batches are disciplined -/

/-- Each event of a batch comes right above a reached version or an earlier event of the
batch. -/
def Chained (seen : List (Obs Storage)) (c : String) (evs : List Event) : Prop :=
  ∀ pre ev post, evs = pre ++ ev :: post → ∃ v, ev.version = v + 1 ∧
    (Reached seen c ev.entityID v ∨ ∃ x ∈ pre, x.entityID = ev.entityID ∧ x.version = v)

theorem Chained.concat {evs : List Event} (h : Chained seen c evs) {ev : Event} {v : Nat}
    (hv : ev.version = v + 1)
    (hev : Reached seen c ev.entityID v ∨ ∃ x ∈ evs, x.entityID = ev.entityID ∧ x.version = v) :
    Chained seen c (evs ++ [ev]) := by
  intro pre x post heq
  rcases eq_nil_or_concat post with rfl | ⟨post', y, rfl⟩
  · obtain ⟨rfl, hx⟩ := append_inj' heq rfl
    cases hx
    exact ⟨v, hv, hev⟩
  · rw [concat_eq_append, ← cons_append, ← append_assoc] at heq
    obtain ⟨rfl, -⟩ := append_inj' heq rfl
    exact h pre x post' rfl

theorem Chained.mono {evs : List Event} (h : Chained seen c evs) (hs : seen ⊆ seen') :
    Chained seen' c evs := by
  intro pre ev post heq
  obtain ⟨v, hv, hr⟩ := h pre ev post heq
  exact ⟨v, hv, hr.imp_left fun hr => hr.mono hs⟩

theorem Chained.tail {ev : Event} {evs : List Event} (h : Chained seen c (ev :: evs))
    (hs : seen ⊆ seen') (hev : Saw seen' (.insertEvent c ev) (.ok ())) : Chained seen' c evs := by
  intro pre x post heq
  obtain ⟨v, hv, hr⟩ := h (ev :: pre) x post (by rw [heq, cons_append])
  refine ⟨v, hv, ?_⟩
  rcases hr with hr | ⟨y, hy, hye, hyv⟩
  · exact .inl (hr.mono hs)
  · rcases mem_cons.mp hy with rfl | hy
    · exact .inl (.inr (.inr (.inr ⟨y, hev, hye, hyv⟩)))
    · exact .inr ⟨y, hy, hye, hyv⟩

/-- What holds of a fold over the items of a collection: its events are chained, the states it
goes on from are reached or of an event of its own, and the states it is going to write are of
an event of its own. -/
structure Fold.Ok (st : Fold) (seen : List (Obs Storage)) (c : String) : Prop where
  events : Chained seen c (st.events.map Prod.fst)
  running : ∀ e cur, st.running e = some (some cur) → Reached seen c e cur.version ∨
    ∃ x ∈ st.events.map Prod.fst, x.entityID = e ∧ x.version = cur.version
  finals : ∀ e fin, st.finals e = some fin → fin.entityID = e ∧
    ∃ x ∈ st.events.map Prod.fst, x.entityID = e ∧ x.version = fin.version

namespace Fold.Ok

variable {st : Fold} {seen seen' : List (Obs Storage)} {c : String}

theorem mono (h : st.Ok seen c) (hs : seen ⊆ seen') : st.Ok seen' c :=
  ⟨h.events.mono hs, fun e cur hcur => (h.running e cur hcur).imp_left fun hr => hr.mono hs,
    h.finals⟩

theorem congr (h : st.Ok seen c) {st' : Fold} (he : st'.events = st.events)
    (hr : st'.running = st.running) (hf : st'.finals = st.finals) : st'.Ok seen c := by
  obtain ⟨h₁, h₂, h₃⟩ := h
  exact ⟨by rwa [he], by rwa [he, hr], by rwa [he, hf]⟩

theorem push (h : st.Ok seen c) {k : Nat} {eid : String} {ev : Event} {newState : Fields}
    {deleted : Bool} {v : Nat} (he : ev.entityID = eid) (hv : ev.version = v + 1)
    (hev : Reached seen c eid v ∨
      ∃ x ∈ st.events.map Prod.fst, x.entityID = eid ∧ x.version = v) :
    (st.push k eid ev newState deleted).Ok seen c := by
  have hevents : (st.push k eid ev newState deleted).events.map Prod.fst =
      st.events.map Prod.fst ++ [ev] := by simp [Fold.push]
  refine ⟨?_, fun e cur hcur => ?_, fun e fin hfin => ?_⟩
  · rw [hevents]
    exact h.events.concat hv (he ▸ hev)
  · rw [hevents]
    simp only [Fold.push] at hcur
    by_cases hee : e = eid
    · subst hee
      rw [update_self] at hcur
      cases hcur
      exact .inr ⟨ev, by simp, he, rfl⟩
    · rw [update_of_ne hee] at hcur
      rcases h.running e cur hcur with hr | ⟨x, hx, hxe⟩
      · exact .inl hr
      · exact .inr ⟨x, mem_append_left _ hx, hxe⟩
  · rw [hevents]
    simp only [Fold.push] at hfin
    by_cases hee : e = eid
    · subst hee
      rw [update_self] at hfin
      cases hfin
      exact ⟨rfl, ev, by simp, he, rfl⟩
    · rw [update_of_ne hee] at hfin
      obtain ⟨hfe, x, hx, hxe⟩ := h.finals e fin hfin
      exact ⟨hfe, x, mem_append_left _ hx, hxe⟩

end Fold.Ok

namespace Batch

variable {b : Batch} {cfg : CollectionConfig} {c : String} {st : Fold}
  {seen : List (Obs Storage)}

private theorem planItem_ok (h : st.Ok seen c) {it : BatchItem} {k : Nat}
    {cur : Option CurrentState}
    (hcur : ∀ x, cur = some x → Reached seen c it.command.entityID x.version ∨
      ∃ y ∈ st.events.map Prod.fst, y.entityID = it.command.entityID ∧ y.version = x.version) :
    (b.planItem cfg c st it k cur).Ok seen c := by
  unfold planItem
  split
  · exact h.congr rfl rfl rfl
  · exact h
  · next ev newState deleted hplan =>
    obtain ⟨op, changes, rfl⟩ := planEvent_write hplan
    -- the version before is that of the state the item is planned against
    have hv : ∃ v, nextVersion cur = v + 1 ∧ (Reached seen c it.command.entityID v ∨
        ∃ y ∈ st.events.map Prod.fst, y.entityID = it.command.entityID ∧ y.version = v) := by
      cases cur with
      | none => exact ⟨0, rfl, .inl (.inl rfl)⟩
      | some x => exact ⟨x.version, rfl, hcur x rfl⟩
    obtain ⟨v, hnext, hev⟩ := hv
    dsimp only
    split_ifs with hpre
    · split
      · exact h.congr rfl rfl rfl
      · next ev' hrun =>
        obtain ⟨m, i, rfl⟩ := annotates_runPreStore hrun
        exact Fold.Ok.congr (h.push rfl hnext hev) rfl rfl rfl
    · exact h.push rfl hnext hev

private theorem load_along {e : String} : Along Disciplined (fun r seen' => seen ⊆ seen' ∧
    ∀ x, r = .ok (some x) → Reached seen' c e x.version) (load c e) seen := by
  refine Along.ask_bind_iff.mpr ⟨trivial, fun r => ?_⟩
  have hsub := subset_cons_self (⟨.getCurrent c e, r⟩ : Obs Storage) seen
  cases r with
  | ok cur =>
    refine ⟨hsub, fun x hx => ?_⟩
    cases hx
    exact .inr (.inr (.inl ⟨cur, saw_self, rfl⟩))
  | error err => cases err <;> exact ⟨hsub, fun x hx => by cases hx⟩

private theorem lastEvent_along {e : String} :
    Along Disciplined (fun _ seen' => seen ⊆ seen') (lastEvent c e) seen := by
  refine Along.ask_bind_iff.mpr ⟨trivial, fun r => ?_⟩
  have hsub := subset_cons_self (⟨.lastEvent c e, r⟩ : Obs Storage) seen
  cases r with
  | ok last => exact hsub
  | error err => cases err <;> exact hsub

private theorem foldItem_along (h : st.Ok seen c) (it : BatchItem) (k : Nat) :
    Along Disciplined (fun st' seen' => st'.Ok seen' c) (b.foldItem cfg c st it k) seen := by
  unfold foldItem
  cases hrun : st.running it.command.entityID with
  | some cur =>
    -- the entity has had an item before, and nothing is read
    simp only [hrun]
    exact planItem_ok h fun x hx => h.running _ x (hx ▸ hrun)
  | none =>
    simp only [hrun]
    refine Along.bind_iff.mpr (load_along.mono ?_)
    rintro (e | cur) seen' ⟨hs, hcur⟩
    · exact (h.mono hs).congr rfl rfl rfl
    · have hst : Fold.Ok { st with
          running := update st.running it.command.entityID (some cur) } seen' c := by
        obtain ⟨h₁, h₂, h₃⟩ := h.mono hs
        refine ⟨h₁, fun e x hx => ?_, h₃⟩
        by_cases hee : e = it.command.entityID
        · subst hee
          simp only [update_self, Option.some.injEq] at hx
          exact .inl (hcur x (by rw [hx]))
        · simp only [update_of_ne hee] at hx
          exact h₂ e x hx
      have hread : ∀ x, cur = some x → Reached seen' c it.command.entityID x.version :=
        fun x hx => hcur x (by rw [hx])
      dsimp only
      -- plugins are shown the last event, so it is read too where there are any
      split_ifs with hpre
      · refine Along.bind_iff.mpr (lastEvent_along.mono ?_)
        rintro (e | last) seen'' hs'
        · exact (hst.mono hs').congr rfl rfl rfl
        · have hst' : Fold.Ok { st with
              running := update st.running it.command.entityID (some cur)
              lastEv := update st.lastEv it.command.entityID last } seen'' c :=
            (hst.mono hs').congr rfl rfl rfl
          exact planItem_ok hst' fun x hx => .inl ((hread x hx).mono hs')
      · exact planItem_ok hst fun x hx => .inl (hread x hx)

private theorem foldItems_along (h : st.Ok seen c) (items : List (BatchItem × Nat)) :
    Along Disciplined (fun st' seen' => st'.Ok seen' c) (b.foldItems cfg c items st) seen := by
  induction items generalizing st seen with
  | nil => exact h
  | cons p items ih =>
    refine Along.bind_iff.mpr ((foldItem_along h p.1 p.2).mono ?_)
    exact fun st' seen' hst' => ih hst'

private theorem insertMany_along {evs : List Event} (h : Chained seen c evs) :
    Along Disciplined (fun r seen' => seen ⊆ seen' ∧ (r = .ok () →
      ∀ ev ∈ evs, Saw seen' (.insertEvent c ev) (.ok ()))) (insertMany c evs) seen := by
  induction evs generalizing seen with
  | nil => exact ⟨List.Subset.refl _, fun _ ev hev => absurd hev not_mem_nil⟩
  | cons ev evs ih =>
    obtain ⟨v, hv, hr⟩ := h [] ev evs rfl
    have hreach : Reached seen c ev.entityID v := by
      rcases hr with hr | ⟨x, hx, -⟩
      · exact hr
      · exact absurd hx not_mem_nil
    refine Along.ask_bind_iff.mpr ⟨⟨v, hv, hreach⟩, fun r => ?_⟩
    have hsub := subset_cons_self (⟨.insertEvent c ev, r⟩ : Obs Storage) seen
    cases r with
    | error e => exact ⟨hsub, fun hok => by cases hok⟩
    | ok u =>
      refine (ih (h.tail hsub saw_self)).mono fun r seen' hpost => ?_
      refine ⟨fun o ho => hpost.1 (hsub ho), fun hok x hx => ?_⟩
      rcases mem_cons.mp hx with rfl | hx
      · exact saw_self.mono hpost.1
      · exact hpost.2 hok x hx

private theorem upsertFinals_along {finals : String → Option CurrentState} (order : List String)
    (h : ∀ e fin, finals e = some fin → Reached seen c fin.entityID fin.version) :
    Along Disciplined (fun _ _ => True) (upsertFinals c finals order) seen := by
  induction order generalizing seen with
  | nil => trivial
  | cons e order ih =>
    unfold upsertFinals
    cases hfin : finals e with
    | none => exact ih h
    | some fin =>
      refine Along.ask_bind_iff.mpr ⟨h e fin hfin, fun r => ih fun e' fin' hfin' => ?_⟩
      exact (h e' fin' hfin').mono (subset_cons_self _ _)

private theorem buildSnapshots_along (snaps : List Snapshot) :
    Along Disciplined (fun _ _ => True) (b.buildSnapshots cfg c snaps) seen := by
  induction snaps generalizing seen with
  | nil => trivial
  | cons snap snaps ih =>
    refine Along.bind_iff.mpr ?_
    unfold buildSnapshot
    split_ifs with hsnap
    · exact Along.ask_bind_iff.mpr ⟨trivial, fun r => ih⟩
    · exact ih

private theorem flush_along (h : st.Ok seen c) :
    Along Disciplined (fun _ _ => True) (b.flush cfg c st) seen := by
  unfold flush
  split_ifs with hnil
  · trivial
  · refine Along.bind_iff.mpr ((insertMany_along h.events).mono ?_)
    rintro (e | u) seen' ⟨hs, hins⟩
    · trivial
    · have hfin : ∀ e fin, st.finals e = some fin →
          Reached seen' c fin.entityID fin.version := by
        intro e fin hfin
        obtain ⟨hfe, x, hx, hxe, hxv⟩ := h.finals e fin hfin
        exact .inr (.inr (.inr ⟨x, hins rfl x hx, by rw [hxe, hfe], hxv⟩))
      refine Along.bind_iff.mpr ((upsertFinals_along st.finalOrder hfin).mono ?_)
      intro _ seen'' _
      exact Along.bind_iff.mpr ((buildSnapshots_along st.snaps).mono fun _ _ _ => trivial)

private theorem batchCollection_along (errs : Nat → Option IngestErr) :
    Along Disciplined (fun _ _ => True) (b.batchCollection c errs) seen := by
  refine Along.ask_bind_iff.mpr ⟨trivial, fun r => ?_⟩
  cases r with
  | error e => trivial
  | ok cfg =>
    have hinit : Fold.Ok { errs } (⟨.ensureCollection c, .ok cfg⟩ :: seen) c := by
      refine ⟨fun pre ev post heq => ?_, fun e cur hcur => ?_, fun e fin hfin => ?_⟩
      · simp at heq
      · simp at hcur
      · simp at hfin
    refine Along.bind_iff.mpr ((foldItems_along hinit _).mono fun st seen' hst => ?_)
    exact flush_along hst

private theorem along (b : Batch) : Along Disciplined (fun _ _ => True) b.ingestBatch [] := by
  have horder : ∀ order errs seen,
      Along Disciplined (fun _ _ => True) (b.batchCollections order errs) seen := by
    intro order
    induction order with
    | nil => exact fun _ _ => trivial
    | cons c order ih =>
      intro errs seen
      exact Along.bind_iff.mpr ((batchCollection_along errs).mono fun errs' seen' _ =>
        ih errs' seen')
  exact Along.bind_iff.mpr ((horder _ _ _).mono fun _ _ _ => trivial)

end Batch

/-! ### Any mix of writers -/

/-- A writer: a single write or a batch. -/
inductive Job where
  | write (w : Write)
  | batch (b : Batch)

/-- What the writer runs. -/
def Job.prog : Job → Prog Storage (Except IngestErr IngestResult ⊕ List (Option IngestErr))
  | .write w => w.prog >>= fun r => pure (.inl r)
  | .batch b => b.ingestBatch >>= fun errs => pure (.inr errs)

private theorem Job.along (j : Job) : Along Disciplined (fun _ _ => True) j.prog [] := by
  cases j with
  | write w => exact Along.bind_iff.mpr (w.disciplined.mono fun _ _ _ => trivial)
  | batch b => exact Along.bind_iff.mpr (b.along.mono fun _ _ _ => trivial)

/-- One job after the other, whatever calls of theirs fail, leaves gap-free histories behind. -/
theorem Job.sequenced_run (srv : Server) (hdb : ∀ c e, db.Sequenced c e)
    (jobs : List (Job × (List (Obs Storage) → Call → Fault))) (c e : String) :
    ((Session.mk [] db).run (handle srv) (jobs.map fun j => (j.1.prog, j.2))).store.Sequenced
      c e := by
  refine Session.run_induction (C := fun _ => True)
    (P := fun s : Session Storage Db => ∀ c e, s.store.Sequenced c e) (fun s a ha _ hs => ?_)
    Session.meets_true hdb c e
  obtain ⟨j, -, rfl⟩ := mem_map.mp ha
  exact (versionLedger_sound (ι := Unit) srv).exec (i := ()) j.1.along hs
    (fun o ho => absurd ho not_mem_nil) j.2

/-- **Versions are gap-free.** Whatever any number of writes and batches do to a fresh database,
in any interleaving of their storage calls and with any of these failing, the versions of an
entity's events are `1, ..., n`, each once, and its current state is at most at `n`. -/
theorem versions_gapFree (srv : Server) {ι : Type} [DecidableEq ι] (jobs : ι → Job) {db : Db}
    (hdb : db.Blank) (sched : List (ι × Fault)) (c e : String) :
    let store := ((Config.initial db fun i => (jobs i).prog).run (handle srv) sched).store
    ∃ n, (store.hist c e).map Event.version = List.range' 1 n ∧
      ∀ st, (store c).current e = some st → st.version ≤ n := by
  have hseq := (versionLedger_run srv (fun i => (jobs i).along) hdb.sequenced sched).inv c e
  exact ⟨_, hseq.versions, hseq.current⟩

/-- A race of two writes and a batch for one entity: the batch counts from the current state it
loaded before the writes came through, and its insertion is refused. -/
theorem versions_gapFree_race :
    let jobs : Fin 3 → Job := fun i => match i with
      | 0 => .write (.ofState "deals" "42" [("a", .bool true)])
      | 1 => .write (.ofState "deals" "42" [("b", .bool true)])
      | 2 => .batch ⟨{}, fun _ => ⟨⟨1⟩, ⟨1⟩⟩,
          [⟨.state, { collection := "deals", entityID := "42", state := [("c", .null)] }⟩]⟩
    let sched := [2, 2, 0, 0, 0, 0, 0, 1, 1, 1, 1, 1, 2].map fun i : Fin 3 => (i, Fault.none)
    let store := ((Config.initial (fun _ => {}) fun i => (jobs i).prog).run
      (handle .mongo) sched).store
    (store.hist "deals" "42").length = 2 ∧
      ∃ n, (store.hist "deals" "42").map Event.version = List.range' 1 n ∧
        ∀ st, (store "deals").current "42" = some st → st.version ≤ n :=
  ⟨by decide, versions_gapFree .mongo _ (fun _ => ⟨rfl, fun _ => rfl⟩) _ _ _⟩

end Letopis
