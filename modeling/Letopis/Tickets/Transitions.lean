import Letopis.Service.Tickets

/-!
# Tickets that are marked at the same time

`Mark` checks a move against the status that it has read, and saves over whatever status is there
by then. If two moves are legal from one status and lead to different ones, both may be checked
against that status, and one of the two orders of saving then makes a move that is not legal: out
of an end state, in fact. So any number of marks keep to the legal moves, however they interleave,
exactly if the moves that are legal at the start all lead to the same status.
-/

namespace Letopis

open Interleaving List Function

namespace TicketStatus

/-- Of two statuses that can be reached from a third, one cannot be reached from the other. -/
theorem canTransition_of_canTransition {a b c : TicketStatus} (hab : a.canTransition b = true)
    (hac : a.canTransition c = true) : b.canTransition c = false ∨ c.canTransition b = false := by
  revert hab hac
  cases a <;> cases b <;> cases c <;> decide

end TicketStatus

/-! ### The law -/

namespace TicketStore

/-- Every ticket is stored under its id. -/
def Keyed (s : TicketStore) : Prop := ∀ id t, s id = some t → t.id = id

/-- The status of each ticket stays or makes a legal move, as long as the ticket is there. -/
def Lawful (before after : TicketStore) : Prop :=
  ∀ id t u, before id = some t → after id = some u →
    u.status = t.status ∨ t.status.canTransition u.status = true

end TicketStore

/-- Marks of tickets in a store. -/
def markPool {ι : Type} (marks : ι → Mark) (s : TicketStore) :
    Config ι Tickets (Except TicketErr Unit) TicketStore :=
  .initial s fun i => (marks i).prog

/-- However the marks interleave, every step of every run is lawful, and a ticket in an end state
keeps its status as long as it is there. -/
structure MarksLawful {ι : Type} [DecidableEq ι] (marks : ι → Mark) (s : TicketStore) : Prop where
  step : ∀ sched a, TicketStore.Lawful ((markPool marks s).run handleTicket sched).store
    ((markPool marks s).run handleTicket (sched ++ [a])).store
  final : ∀ sched sched' id t u,
    ((markPool marks s).run handleTicket sched).store id = some t → t.status.terminal = true →
    ((markPool marks s).run handleTicket (sched ++ sched')).store id = some u →
    u.status = t.status

/-! ### What a mark does -/

namespace Mark

variable (m : Mark)

private theorem advance_ok {m : Mark} {t : TrackedTicket}
    (h : t.status.canTransition m.status = true) :
    m.advance (.ok t) = Tickets.ask (.save (m.saved t)) := by
  have hne : t.status ≠ m.status := by
    intro heq
    rw [heq, TicketStatus.canTransition_irrefl] at h
    cases h
  rw [advance, if_neg]
  rw [h]
  exact fun hor => hor.elim hne fun hf => nomatch hf

/-- A mark looks at its ticket, and then saves it with its own status if the move is legal. -/
def May (seen : List (Obs Tickets)) : TicketCall → Prop
  | .get id => id = m.id
  | .save t => m.id ≠ "" ∧ ∃ u, (⟨.get m.id, .ok u⟩ : Obs Tickets) ∈ seen ∧
      u.status.canTransition m.status = true ∧ t.id = u.id ∧ t.status = m.status

private theorem prog_along : Along m.May (fun _ _ => True) m.prog [] := by
  rw [prog]
  split_ifs with hid
  · exact trivial
  · refine Along.ask_bind_iff.mpr ⟨rfl, fun r => ?_⟩
    rcases r with (_ | _) | t
    · exact trivial
    · exact trivial
    · by_cases h : t.status.canTransition m.status = true
      · rw [advance_ok h]
        exact ⟨⟨hid, t, mem_cons_self, h, rfl, rfl⟩, fun _ => trivial⟩
      · rw [advance, if_pos (.inr (by simpa using h))]
        exact trivial

end Mark

/-! ### What calls do -/

namespace TicketStore

private theorem serve_cases (c : TicketCall) (s : TicketStore) (id : String) :
    (s.serve c).2 id = s id ∨
      ∃ t, c = .save t ∧ id = t.id ∧ (s id).isSome ∧ (s.serve c).2 id = some t := by
  cases c with
  | get _ => exact .inl rfl
  | save t =>
    rw [serve]
    split_ifs with hsome
    · by_cases hid : id = t.id
      · subst hid
        exact .inr ⟨t, rfl, rfl, hsome, update_self ..⟩
      · exact .inl (update_of_ne hid ..)
    · exact .inl rfl

private theorem expire_cases (c : TicketCall) (s : TicketStore) (id : String) :
    s.expire c id = s id ∨ s.expire c id = none := by
  cases c with
  | get id' | save t =>
    rw [expire, update_apply]
    split_ifs
    · exact .inr rfl
    · exact .inl rfl

/-- A call does nothing to a ticket, loses it, or saves it over one that is there. -/
theorem handleTicket_cases (c : TicketCall) (f : Mishap) (s : TicketStore) (id : String) :
    (handleTicket c f s).2 id = s id ∨ (handleTicket c f s).2 id = none ∨
      ∃ t, c = .save t ∧ id = t.id ∧ (s id).isSome ∧ (handleTicket c f s).2 id = some t := by
  have hserve := s.serve_cases c id
  cases f with
  | none | lost => exact hserve.imp_right .inr
  | failed | refused => exact .inl rfl
  | expired =>
    change (serve c (s.expire c)).2 id = s id ∨ (serve c (s.expire c)).2 id = none ∨ _
    rcases (s.expire c).serve_cases c id with h | ⟨t, rfl, rfl, hsome, -⟩
    · rw [h]
      exact (s.expire_cases c id).imp_right .inl
    · simp [expire] at hsome

private theorem eq_some_of_get {id : String} {f : Mishap} {s : TicketStore} {u : TrackedTicket}
    (h : (handleTicket (.get id) f s).1 = .ok u) : s id = some u := by
  cases f with
  | none =>
    change ((s id).elim (.error .notFound) .ok : Except TicketErr TrackedTicket) = .ok u at h
    cases hid : s id with
    | none => simp [hid] at h
    | some t => simpa [hid] using h
  | failed | lost | refused => cases h
  | expired => simp [handleTicket, serve, expire] at h

end TicketStore

/-! ### What a run leaves -/

section Run

variable {ι : Type} (marks : ι → Mark) (s : TicketStore)

/-- The status of a ticket that marks may have led to: the one at the start, or one that a mark asks
for and that is legal from there. -/
def StatusReached (id : String) (a : TicketStatus) : Prop :=
  ∃ t, s id = some t ∧ (a = t.status ∨ t.status.canTransition a = true ∧
    id ≠ "" ∧ ∃ i, (marks i).id = id ∧ (marks i).status = a)

/-- The marks of a ticket that are legal at the start all ask for the same status. -/
def Agree : Prop :=
  ∀ i j t, (marks i).id ≠ "" → (marks j).id = (marks i).id → s (marks i).id = some t →
    t.status.canTransition (marks i).status = true →
    t.status.canTransition (marks j).status = true → (marks i).status = (marks j).status

variable {marks s}

/-- What is legal from a status that marks may have led to is legal at the start. -/
theorem StatusReached.canTransition {id : String} {a b : TicketStatus}
    (h : StatusReached marks s id a) (hab : a.canTransition b = true) :
    ∃ t, s id = some t ∧ t.status.canTransition b = true := by
  obtain ⟨t, ht, rfl | ⟨hta, -, -⟩⟩ := h
  · exact ⟨t, ht, hab⟩
  · exact ⟨t, ht, TicketStatus.canTransition_trans hta hab⟩

variable (marks s)

/-- All that is stored or has been read of a ticket are statuses that marks may have led to. -/
def markLedger : Ledger ι Tickets TicketStore where
  inv s' := ∀ id u, s' id = some u → u.id = id ∧ StatusReached marks s id u.status
  fact _ o _ :=
    match o with
    | ⟨.get id, .ok u⟩ => u.id = id ∧ StatusReached marks s id u.status
    | _ => True

variable {marks s}

variable {t : TrackedTicket} {cfg : Config ι Tickets (Except TicketErr Unit) TicketStore}

/-- The ticket that a mark saves is its own, with a status that marks may lead to. -/
theorem Mark.May.reached {i : ι} {seen : List (Obs Tickets)} {s' : TicketStore}
    (h : (marks i).May seen (.save t)) (hfact : ∀ o ∈ seen, (markLedger marks s).fact i o s') :
    (marks i).id ≠ "" ∧ t.id = (marks i).id ∧ t.status = (marks i).status ∧
      ∃ t₀, s (marks i).id = some t₀ ∧ t₀.status.canTransition (marks i).status = true := by
  obtain ⟨hid, u, hmem, hmove, htid, hstatus⟩ := h
  obtain ⟨huid, hreach⟩ := hfact _ hmem
  exact ⟨hid, htid.trans huid, hstatus, hreach.canTransition hmove⟩

private theorem markLedger_sound : (markLedger marks s).Sound handleTicket (fun i => (marks i).May)
    fun _ _ _ _ _ => True := by
  intro i seen c f s' hP _ hinv hfact
  refine ⟨fun id u hu => ?_, ?_, fun _ _ ho => ho⟩
  · rcases s'.handleTicket_cases c f id with h | h | ⟨t, rfl, rfl, -, h⟩
    · exact hinv id u (h ▸ hu)
    · rw [h] at hu
      cases hu
    · obtain rfl : t = u := Option.some.inj (h.symm.trans hu)
      obtain ⟨hid, htid, hstatus, t₀, ht₀, hmove⟩ := hP.reached hfact
      rw [htid, hstatus]
      exact ⟨rfl, t₀, ht₀, .inr ⟨hmove, hid, i, rfl, rfl⟩⟩
  · generalize hres : (handleTicket c f s').1 = res
    cases c with
    | save t => exact trivial
    | get id =>
      cases res with
      | error e => exact trivial
      | ok u => exact hinv id u (TicketStore.eq_some_of_get hres)

variable [DecidableEq ι]

variable (marks) in
private theorem markPool_holds (hs : s.Keyed) (sched : List (ι × Mishap)) :
    (markLedger marks s).Holds ((markPool marks s).run handleTicket sched) ∧
      ((markPool marks s).run handleTicket sched).Follows (fun i => (marks i).May)
        fun _ _ _ => True := by
  have hfollows : (markPool marks s).Follows (fun i => (marks i).May) fun _ _ _ => True :=
    fun i => (marks i).prog_along
  have hstart : (markLedger marks s).inv s := fun id u hu => ⟨hs id u hu, u, hu, .inl rfl⟩
  exact ⟨(Ledger.holds_initial hstart _).run markLedger_sound hfollows Config.meets_true,
    hfollows.run sched⟩

/-- One step makes a lawful move. -/
theorem Agree.lawful_step (hagree : Agree marks s) (hs : s.Keyed) (sched : List (ι × Mishap))
    (a : ι × Mishap) : TicketStore.Lawful ((markPool marks s).run handleTicket sched).store
      ((markPool marks s).run handleTicket (sched ++ [a])).store := by
  obtain ⟨hledger, hfollows⟩ := markPool_holds marks hs sched
  rw [Config.run_append, Config.run_cons, Config.run_nil]
  intro id t u ht hu
  rcases hfollows.step_cases (h := handleTicket) a with heq | ⟨c, k, -, hmay, hstore, -⟩
  · rw [heq, ht] at hu
    exact .inl (by rw [Option.some.inj hu])
  · rw [hstore] at hu
    rcases TicketStore.handleTicket_cases c a.2 _ id with h | h | ⟨t', rfl, rfl, -, h⟩
    · rw [h, ht] at hu
      exact .inl (by rw [Option.some.inj hu])
    · rw [h] at hu
      cases hu
    · obtain rfl : t' = u := Option.some.inj (h.symm.trans hu)
      obtain ⟨hid, htid, hstatus, t₀, ht₀, hmove⟩ := hmay.reached (hledger.fact a.1)
      obtain ⟨-, t₁, ht₁, hreach⟩ := hledger.inv _ t ht
      rw [htid, ht₀] at ht₁
      cases ht₁
      rw [hstatus]
      -- the ticket still has its first status, or one that another mark has given it
      rcases hreach with hstart | ⟨hmove', -, j, hj, hj'⟩
      · exact .inr (hstart ▸ hmove)
      · rw [← hj']
        exact .inl (hagree a.1 j t₀ hid (hj.trans htid) ht₀ hmove (hj' ▸ hmove'))

private theorem gone_step (a : ι × Mishap) {id : String} (h : cfg.store id = none) :
    (cfg.step handleTicket a).store id = none := by
  rcases cfg.step_calls handleTicket a with ⟨heq, -⟩ | ⟨c, k, -, -, hstore⟩
  · rwa [heq]
  · rw [hstore]
    rcases TicketStore.handleTicket_cases c a.2 cfg.store id with h' | h' | ⟨t, -, -, hsome, -⟩
    · rw [h', h]
    · exact h'
    · rw [h] at hsome
      cases hsome

private theorem final_of_lawful (hstep : ∀ sched a,
      TicketStore.Lawful ((markPool marks s).run handleTicket sched).store
        ((markPool marks s).run handleTicket (sched ++ [a])).store)
    (sched sched' : List (ι × Mishap)) {id : String}
    (ht : ((markPool marks s).run handleTicket sched).store id = some t)
    (hterm : t.status.terminal = true) :
    ∀ u, ((markPool marks s).run handleTicket (sched ++ sched')).store id = some u →
      u.status = t.status := by
  induction sched' using List.reverseRecOn with
  | nil =>
    intro u hu
    rw [append_nil, ht] at hu
    rw [Option.some.inj hu]
  | append_singleton sched' a ih =>
    intro u hu
    rw [← append_assoc] at hu
    cases hv : ((markPool marks s).run handleTicket (sched ++ sched')).store id with
    | none =>
      rw [Config.run_append, Config.run_cons, Config.run_nil, gone_step a hv] at hu
      cases hu
    | some v =>
      have hvt := ih v hv
      rcases hstep _ a id v u hv hu with hsame | hmove
      · exact hsame.trans hvt
      · rw [hvt, TicketStatus.terminal_iff.mp hterm] at hmove
        cases hmove

private theorem step_get {i : ι} {m : Mark} (hprog : (cfg.threads i).prog = m.prog)
    (hid : m.id ≠ "")
    (ht : cfg.store m.id = some t) (hmove : t.status.canTransition m.status = true) :
    (cfg.step handleTicket (i, .none)).store = cfg.store ∧
      ((cfg.step handleTicket (i, .none)).threads i).prog = Tickets.ask (.save (m.saved t)) ∧
      ∀ j, j ≠ i → (cfg.step handleTicket (i, .none)).threads j = cfg.threads j := by
  rw [Mark.prog, if_neg hid, Prog.ask_bind] at hprog
  rw [Config.step_of_call handleTicket (a := (i, .none)) hprog]
  refine ⟨rfl, ?_, fun j hj => update_of_ne hj ..⟩
  rw [← Mark.advance_ok hmove]
  simp [handleTicket, TicketStore.serve, ht]

private theorem step_save {i : ι} (hprog : (cfg.threads i).prog = Tickets.ask (.save t))
    (ht : (cfg.store t.id).isSome) :
    (cfg.step handleTicket (i, .none)).store = update cfg.store t.id (some t) ∧
      ∀ j, j ≠ i → (cfg.step handleTicket (i, .none)).threads j = cfg.threads j := by
  rw [Config.step_of_call handleTicket (a := (i, .none)) hprog]
  exact ⟨by simp [handleTicket, TicketStore.serve, ht], fun j hj => update_of_ne hj ..⟩

/-- Two marks that are checked against the same status, one saving after the other. -/
theorem run_both {i j : ι} (hs : s.Keyed) (hij : i ≠ j) (hid : (marks i).id ≠ "")
    (hsame : (marks j).id = (marks i).id) (ht : s (marks i).id = some t)
    (hi : t.status.canTransition (marks i).status = true)
    (hj : t.status.canTransition (marks j).status = true) :
    let sched : List (ι × Mishap) := [(i, .none), (j, .none), (i, .none)]
    ((markPool marks s).run handleTicket sched).store (marks i).id = some ((marks i).saved t) ∧
      ((markPool marks s).run handleTicket (sched ++ [(j, .none)])).store (marks i).id =
        some ((marks j).saved t) := by
  intro sched
  have htid : ∀ m : Mark, (m.saved t).id = (marks i).id := fun _ => hs _ t ht
  -- both look before either saves
  have hfresh : ((markPool marks s).threads i).prog = (marks i).prog := rfl
  obtain ⟨hstore₁, hprog₁, hother₁⟩ := step_get hfresh hid ht hi
  have hstart : (((markPool marks s).step handleTicket (i, .none)).threads j).prog =
      (marks j).prog := by rw [hother₁ j hij.symm]; rfl
  obtain ⟨hstore₂, hprog₂, hother₂⟩ := step_get hstart (hsame ▸ hid)
    (by rw [hstore₁, hsame]; exact ht) hj
  have hnext := (congrArg Thread.prog (hother₂ i hij)).trans hprog₁
  have hthere : ((markPool marks s).store (marks i).id).isSome := Option.isSome_of_eq_some ht
  obtain ⟨hstore₃, hother₃⟩ := step_save hnext (by rw [hstore₂, hstore₁, htid]; exact hthere)
  have hlast := (congrArg Thread.prog (hother₃ j hij.symm)).trans hprog₂
  obtain ⟨hstore₄, -⟩ := step_save hlast (by rw [hstore₃, htid, htid, update_self]; rfl)
  simp only [sched, cons_append, nil_append, Config.run_cons, Config.run_nil]
  rw [hstore₄, hstore₃, htid, htid, update_self, update_self]
  exact ⟨rfl, rfl⟩

end Run

/-- **Marks at the same time.** Any number of marks keep to the legal moves, however they interleave
and fail, if and only if the marks of a ticket that are legal at the start all ask for the same
status. -/
theorem marksLawful_iff {ι : Type} [DecidableEq ι] (marks : ι → Mark) (s : TicketStore)
    (hs : s.Keyed) : MarksLawful marks s ↔ Agree marks s := by
  constructor
  · intro hlaw i j t hid hsame ht hi hj
    by_contra hne
    have hij : i ≠ j := fun hij => hne (by rw [hij])
    -- Both orders of saving are runs, but one of them makes a move that is not legal.
    have hlegal : ∀ {i j : ι}, i ≠ j → (marks i).id ≠ "" → (marks j).id = (marks i).id →
        s (marks i).id = some t → t.status.canTransition (marks i).status = true →
        t.status.canTransition (marks j).status = true → (marks i).status ≠ (marks j).status →
        (marks i).status.canTransition (marks j).status = true := by
      intro i j hij hid hsame ht hi hj hne
      obtain ⟨hbefore, hafter⟩ := run_both hs hij hid hsame ht hi hj
      exact (hlaw.step _ _ _ _ _ hbefore hafter).resolve_left hne.symm
    have hto := hlegal hij hid hsame ht hi hj hne
    have hfro := hlegal hij.symm (hsame ▸ hid) hsame.symm (hsame ▸ ht) hj hi (Ne.symm hne)
    rcases TicketStatus.canTransition_of_canTransition hi hj with h | h
    · rw [h] at hto
      cases hto
    · rw [h] at hfro
      cases hfro
  · intro hagree
    have hstep := hagree.lawful_step hs
    exact ⟨hstep, fun sched sched' id t u ht hterm => final_of_lawful hstep sched sched' ht hterm u⟩

/-- Two workers that both find a write stored may mark its ticket at the same time. -/
theorem marksLawful_iff_stored_twice :
    let s : TicketStore := fun id =>
      if id = "t" then some { id := "t", entityCollection := "deals", entityID := "42" } else none
    MarksLawful (fun _ : Fin 2 => ⟨"t", .stored, "", .zero⟩) s := by
  intro s
  have hs : s.Keyed := by
    intro id t ht
    by_cases hid : id = "t"
    · simp only [s, hid, if_true, Option.some.injEq] at ht
      rw [← ht, hid]
    · simp [s, hid] at ht
  exact (marksLawful_iff _ s hs).mpr fun i j t _ _ _ _ _ => rfl

/-- One worker finds a write stored and another finds that it has failed. The first saves, then the
second: a ticket that was stored has failed. -/
theorem marks_leave_end_state :
    let s : TicketStore := fun id =>
      if id = "t" then some { id := "t", entityCollection := "deals", entityID := "42" } else none
    let marks : Fin 2 → Mark := fun i => ⟨"t", if i = 0 then .stored else .failed, "", .zero⟩
    let sched : List (Fin 2 × Mishap) := [(0, .none), (1, .none), (0, .none)]
    (((markPool marks s).run handleTicket sched).store "t").map TrackedTicket.status =
        some .stored ∧
      (((markPool marks s).run handleTicket (sched ++ [(1, .none)])).store "t").map
        TrackedTicket.status = some .failed := by
  decide +kernel

end Letopis
