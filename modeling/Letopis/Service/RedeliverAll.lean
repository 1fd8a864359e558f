import Letopis.ForMathlib.Paging
import Letopis.Service.DLQ

/-!
# Redelivering all dead letters of a rule

`redeliverAll` reads the first page of the rule's dead letters over and over. A dead letter that has
been published again is deleted, so the window slides on; that a deletion has failed is only logged.
A dead letter that could not be deleted is on the next page again, if there is a next page: it is
published once more, and if a whole page cannot be deleted, the loop does not end.

What the loop comes to is a function of the rule's dead letters and of the faults of the deletions
(`drain`). All dead letters are published exactly once if and only if no deletion fails on a page
that is full (`redelivers_once_iff`).
-/

namespace Letopis

open Interleaving List

/-! ### The listing of a rule -/

namespace DLQStore

/-- The place of a dead letter in a listing: newest first, then by id, the greatest first. -/
def key (dl : DeadLetter) : Int ×ₗ Stringᵒᵈ := toLex (-dl.failedAt.ns, OrderDual.toDual dl.id)

private theorem precedes_iff {a b : DeadLetter} : precedes a b = true ↔ key a ≤ key b := by
  simp only [precedes, key, Prod.Lex.toLex_le_toLex, Bool.or_eq_true, Bool.and_eq_true,
    decide_eq_true_eq, Bool.not_eq_true', decide_eq_false_iff_not, not_lt, neg_lt_neg_iff, neg_inj,
    OrderDual.toDual_le_toDual]
  exact or_congr_right (and_congr_left' eq_comm)

/-- The dead letters of a rule, newest first. -/
def ofRule (s : DLQStore) (ruleID : String) : List DeadLetter :=
  (s.letters.filter fun dl => dl.ruleID = ruleID).insertionSort fun a b => precedes a b

private theorem perm_ofRule (s : DLQStore) (ruleID : String) :
    (s.ofRule ruleID).Perm (s.letters.filter fun dl => dl.ruleID = ruleID) :=
  perm_insertionSort _ _

private theorem nodup_ofRule (s : DLQStore) (ruleID : String) :
    ((s.ofRule ruleID).map DeadLetter.id).Nodup :=
  ((s.perm_ofRule ruleID).map _).nodup_iff.mpr (s.nodup.sublist (filter_sublist.map _))

private theorem list_first (s : DLQStore) (ruleID : String) {limit : Nat} (hlimit : 0 < limit) :
    s.list ruleID limit none = (s.ofRule ruleID).take limit := by
  simp only [list, ofRule, Option.all_none, Bool.and_true, hlimit.ne', if_false]

private theorem ofRule_delete (s : DLQStore) (ruleID id : String) :
    (s.delete id).ofRule ruleID = (s.ofRule ruleID).filter fun dl => dl.id ≠ id := by
  have hkeys : ((s.letters.filter fun dl => dl.ruleID = ruleID).map key).Nodup := by
    have hids := s.nodup.sublist (filter_sublist (p := fun dl => dl.ruleID = ruleID)|>.map _)
    rw [List.Nodup, pairwise_map] at hids ⊢
    exact hids.imp fun {a b} hne heq =>
      hne (OrderDual.toDual_inj.mp (congrArg (fun k => (ofLex k).2) heq))
  have hsort := Paging.insertionSort_filter (fun a b => precedes_iff (a := a) (b := b)) hkeys
    fun dl => dl.id ≠ id
  rw [ofRule, ofRule, ← hsort, delete, filter_filter, filter_filter]
  simp only [Bool.and_comm]

end DLQStore

/-! ### Failing deletions -/

/-- The call is a deletion. -/
def DLQCall.isDelete : DLQCall → Bool
  | .delete _ => true
  | .list _ _ _ | .get _ | .publish _ => false

/-- The number of deletions so far. -/
def deletions : List (Obs DeadLetters) → Nat
  | [] => 0
  | o :: seen => if o.1.isDelete then deletions seen + 1 else deletions seen

/-- Deletions fail by a pattern: `faults i` is what becomes of the deletion number `i`. No other
call fails. -/
def deletionFaults (faults : Nat → Fault) (seen : List (Obs DeadLetters)) (c : DLQCall) : Fault :=
  if c.isDelete then faults (deletions seen) else .none

/-- The ids of a page that are gone after it, where `k` deletions were made before. -/
def deleted (faults : Nat → Fault) : Nat → List DeadLetter → List String
  | _, [] => []
  | k, dl :: page =>
    if faults k = .before then deleted faults (k + 1) page
    else dl.id :: deleted faults (k + 1) page

/-- The dead letters that are published when all of a listing are redelivered, page by page, where
`k` deletions were made before; `none` if `fuel` pages do not do. -/
def drain (faults : Nat → Fault) : Nat → Nat → List DeadLetter → Option (List DeadLetter)
  | 0, _, _ => none
  | fuel + 1, k, l =>
    let page := l.take redeliverAllPageSize
    if page.length < redeliverAllPageSize then some page
    else
      (drain faults fuel (k + page.length) (l.filter fun dl => dl.id ∉ deleted faults k page)).map
        fun rest => page ++ rest

/-- A deletion removes the dead letter from the listing, unless it fails without effect. -/
theorem handleDLQ_delete (ruleID id : String) (f : Fault) (s : DLQStore) :
    (handleDLQ (.delete id) f s).2.queue = s.queue ∧
      (handleDLQ (.delete id) f s).2.ofRule ruleID =
        if f = .before then s.ofRule ruleID
        else (s.ofRule ruleID).filter fun dl => dl.id ≠ id := by
  have hserve : (s.serve (.delete id)).2.queue = s.queue ∧
      (s.serve (.delete id)).2.ofRule ruleID =
        (s.ofRule ruleID).filter fun dl => dl.id ≠ id := by
    rw [DLQStore.serve]
    split_ifs with hany
    · exact ⟨rfl, s.ofRule_delete ruleID id⟩
    · -- there is nothing to delete
      refine ⟨rfl, (filter_eq_self.mpr fun dl hdl => ?_).symm⟩
      have hmem := mem_of_mem_filter ((s.perm_ofRule ruleID).mem_iff.mp hdl)
      exact decide_eq_true fun heq => hany (any_eq_true.mpr ⟨dl, hmem, decide_eq_true heq⟩)
  cases f with
  | none | after => exact hserve
  | before => exact ⟨rfl, rfl⟩

namespace DLQService

variable (t : Tenant) (ruleID : String) (faults : Nat → Fault)

private theorem exec_redeliverOne (dl : DeadLetter) (seen : List (Obs DeadLetters)) (s : DLQStore) :
    let o := (redeliverOne t dl).exec handleDLQ (deletionFaults faults) seen s
    o.value = .ok () ∧ deletions o.seen = deletions seen + 1 ∧
      o.store.queue = s.queue ++ [dl.requeued t] ∧
      o.store.ofRule ruleID = if faults (deletions seen) = .before then s.ofRule ruleID
        else (s.ofRule ruleID).filter fun x => x.id ≠ dl.id := by
  obtain ⟨hqueue, hletters⟩ :=
    handleDLQ_delete ruleID dl.id (faults (deletions seen)) (s.publish (dl.requeued t))
  exact ⟨rfl, rfl, hqueue, hletters⟩

/-- The dead letters of a page are published, and those that can be are deleted. -/
theorem exec_redeliverPage (page : List DeadLetter) (n : Nat) (seen : List (Obs DeadLetters))
    (s : DLQStore) :
    let o := (redeliverPage t page n).exec handleDLQ (deletionFaults faults) seen s
    o.value = (n + page.length, none) ∧ deletions o.seen = deletions seen + page.length ∧
      o.store.queue = s.queue ++ page.map (fun dl => dl.requeued t) ∧
      o.store.ofRule ruleID =
        (s.ofRule ruleID).filter fun dl => dl.id ∉ deleted faults (deletions seen) page := by
  induction page generalizing n seen s with
  | nil => simp [redeliverPage, Prog.exec, deleted]
  | cons dl page ih =>
    obtain ⟨hvalue, hcount, hqueue, hletters⟩ := exec_redeliverOne t ruleID faults dl seen s
    rw [redeliverPage, Prog.exec_bind, hvalue]
    obtain ⟨ihvalue, ihcount, ihqueue, ihletters⟩ := ih (n + 1)
      ((redeliverOne t dl).exec handleDLQ (deletionFaults faults) seen s).seen
      ((redeliverOne t dl).exec handleDLQ (deletionFaults faults) seen s).store
    refine ⟨?_, ?_, ?_, ?_⟩
    · rw [ihvalue, length_cons]
      simp [Nat.add_comm, Nat.add_left_comm]
    · rw [ihcount, hcount, length_cons]
      omega
    · rw [ihqueue, hqueue, map_cons, append_assoc, singleton_append]
    · rw [ihletters, hletters, hcount, deleted]
      split_ifs
      · rfl
      · rw [filter_filter]
        refine filter_congr fun x _ => ?_
        simp [not_or, Bool.and_comm]

/-- **The loop.** Redelivering all dead letters of a rule publishes what `drain` says, and returns
how many these are. -/
theorem exec_redeliverAll (fuel n : Nat) (seen : List (Obs DeadLetters)) (s : DLQStore) :
    let o := (redeliverAll t ruleID fuel n).exec handleDLQ (deletionFaults faults) seen s
    let published := drain faults fuel (deletions seen) (s.ofRule ruleID)
    o.value = published.map (fun l => (n + l.length, none)) ∧
      ∀ l ∈ published, o.store.queue = s.queue ++ l.map fun dl => dl.requeued t := by
  induction fuel generalizing n seen s with
  | zero => simp [redeliverAll, Prog.exec, drain]
  | succ fuel ih =>
    have hpage : s.list ruleID redeliverAllPageSize none =
        (s.ofRule ruleID).take redeliverAllPageSize := s.list_first ruleID (by decide)
    have hlist : handleDLQ (.list ruleID redeliverAllPageSize none)
        (deletionFaults faults seen (.list ruleID redeliverAllPageSize none)) s =
        (.ok ((s.ofRule ruleID).take redeliverAllPageSize), s) := by
      rw [← hpage]
      rfl
    rw [redeliverAll, drain, Prog.ask_bind, Prog.exec, hlist]
    dsimp only
    generalize (s.ofRule ruleID).take redeliverAllPageSize = page
    by_cases hnil : page = []
    · subst hnil
      have hpos : 0 < redeliverAllPageSize := by decide
      simp [Prog.exec, hpos]
    · rw [if_neg hnil, Prog.exec_bind]
      -- the listing itself is not a deletion
      obtain ⟨hvalue, hcount, hqueue, hletters⟩ := exec_redeliverPage t ruleID faults page n
        (⟨.list ruleID redeliverAllPageSize none, .ok page⟩ :: seen) s
      rw [hvalue]
      dsimp only
      split_ifs with hshort
      · simpa [Prog.exec] using hqueue
      · obtain ⟨ihvalue, ihqueue⟩ := ih (n + page.length) _ _
        rw [hcount, hletters] at ihvalue ihqueue
        refine ⟨?_, fun l hl => ?_⟩
        · rw [ihvalue, Option.map_map]
          refine congrArg (fun g => Option.map g _) (funext fun l => ?_)
          simp [Nat.add_assoc]
        · obtain ⟨rest, hrest, rfl⟩ := Option.map_eq_some_iff.mp hl
          rw [ihqueue rest hrest, hqueue, map_append, append_assoc]

end DLQService

/-! ### What is published -/

section Drain

variable {faults : Nat → Fault} {k : Nat} {l page : List DeadLetter}

/-- No deletion fails on a page that is full. -/
def DeletesFullPages (faults : Nat → Fault) (k n : Nat) : Prop :=
  ∀ i < redeliverAllPageSize * (n / redeliverAllPageSize), faults (k + i) ≠ .before

private theorem deleted_subset {id : String} (h : id ∈ deleted faults k page) :
    id ∈ page.map DeadLetter.id := by
  induction page generalizing k with
  | nil => exact h
  | cons dl page ih =>
    rw [deleted] at h
    split_ifs at h
    · exact mem_cons_of_mem _ (ih h)
    · rcases mem_cons.mp h with rfl | h
      · exact mem_cons_self
      · exact mem_cons_of_mem _ (ih h)

private theorem forall_mem_deleted_iff (hpage : (page.map DeadLetter.id).Nodup) :
    (∀ dl ∈ page, dl.id ∈ deleted faults k page) ↔ ∀ i < page.length, faults (k + i) ≠ .before := by
  induction page generalizing k with
  | nil => simp
  | cons dl page ih =>
    obtain ⟨hdl, hpage⟩ := nodup_cons.mp hpage
    have htail := ih (k := k + 1) hpage
    simp only [Nat.add_assoc, Nat.add_comm 1] at htail
    rw [length_cons, Nat.forall_lt_succ_left, Nat.add_zero, ← htail, forall_mem_cons,
      deleted]
    split_ifs with hk
    · exact iff_of_false (fun h => hdl (deleted_subset h.1)) fun h => h.1 hk
    · have hother : ∀ x ∈ page, x.id ∈ dl.id :: deleted faults (k + 1) page ↔
          x.id ∈ deleted faults (k + 1) page := by
        intro x hx
        have hne : x.id ≠ dl.id := fun heq => hdl (heq ▸ mem_map_of_mem hx)
        simp [hne]
      refine and_congr (iff_of_true mem_cons_self hk) ?_
      exact forall_congr' fun x => imp_congr_right (hother x)

/-- The dead letters of a page that could not be deleted. -/
def stuck (faults : Nat → Fault) (k : Nat) (page : List DeadLetter) : List DeadLetter :=
  page.filter fun dl => dl.id ∉ deleted faults k page

private theorem stuck_eq_nil_iff (hpage : (page.map DeadLetter.id).Nodup) :
    stuck faults k page = [] ↔ ∀ i < page.length, faults (k + i) ≠ .before := by
  rw [← forall_mem_deleted_iff hpage, stuck, filter_eq_nil_iff]
  exact forall_congr' fun dl => imp_congr_right fun _ => by simp

/-- After a page the dead letters that could not be deleted are followed by those that have not been
read yet. -/
theorem filter_deleted (hl : (l.map DeadLetter.id).Nodup) (n : Nat) :
    (l.filter fun dl => dl.id ∉ deleted faults k (l.take n)) =
      stuck faults k (l.take n) ++ l.drop n := by
  have hdisj : ∀ dl ∈ l.drop n, dl.id ∉ deleted faults k (l.take n) := by
    intro dl hdl hmem
    have happ : ((l.take n).map DeadLetter.id ++ (l.drop n).map DeadLetter.id).Nodup := by
      rwa [← map_append, take_append_drop]
    exact (nodup_append.mp happ).2.2 _ (deleted_subset hmem) _ (mem_map_of_mem hdl) rfl
  have hrest : ((l.drop n).filter fun dl => dl.id ∉ deleted faults k (l.take n)) = l.drop n :=
    filter_eq_self.mpr fun dl hdl => decide_eq_true (hdisj dl hdl)
  have hsplit : ∀ p : DeadLetter → Bool, l.filter p = (l.take n).filter p ++ (l.drop n).filter p :=
    fun p => by rw [← filter_append, take_append_drop]
  exact (hsplit _).trans (by rw [hrest]; rfl)

private theorem drain_of_lt (fuel : Nat) (hl : l.length < redeliverAllPageSize) :
    drain faults (fuel + 1) k l = some l := by
  rw [drain, take_of_length_le hl.le]
  exact if_pos hl

/-- A full page is followed by what could not be deleted and what has not been read yet. -/
theorem drain_of_le (fuel : Nat) (hl : (l.map DeadLetter.id).Nodup)
    (hfull : redeliverAllPageSize ≤ l.length) : drain faults (fuel + 1) k l =
      (drain faults fuel (k + redeliverAllPageSize)
        (stuck faults k (l.take redeliverAllPageSize) ++ l.drop redeliverAllPageSize)).map
          fun rest => l.take redeliverAllPageSize ++ rest := by
  have hlen : (l.take redeliverAllPageSize).length = redeliverAllPageSize :=
    length_take_of_le hfull
  rw [drain, if_neg (by omega), hlen, filter_deleted hl]

private theorem nodup_next (hl : (l.map DeadLetter.id).Nodup) (n : Nat) :
    ((stuck faults k (l.take n) ++ l.drop n).map DeadLetter.id).Nodup := by
  rw [← filter_deleted hl]
  exact hl.sublist (filter_sublist.map _)

private theorem deletesFullPages_iff {n : Nat} (hn : redeliverAllPageSize ≤ n) :
    DeletesFullPages faults k n ↔ (∀ i < redeliverAllPageSize, faults (k + i) ≠ .before) ∧
      DeletesFullPages faults (k + redeliverAllPageSize) (n - redeliverAllPageSize) := by
  have hpos : 0 < redeliverAllPageSize := by decide
  have hdiv : n / redeliverAllPageSize = (n - redeliverAllPageSize) / redeliverAllPageSize + 1 :=
    Nat.div_eq_sub_div hpos hn
  rw [DeletesFullPages, DeletesFullPages, hdiv, Nat.mul_succ]
  constructor
  · refine fun h => ⟨fun i hi => h i (by omega), fun i hi => ?_⟩
    rw [Nat.add_assoc]
    exact h _ (by omega)
  · rintro ⟨hfirst, hrest⟩ i hi
    by_cases hlt : i < redeliverAllPageSize
    · exact hfirst i hlt
    · have := hrest (i - redeliverAllPageSize) (by omega)
      rwa [Nat.add_assoc, Nat.add_sub_cancel' (by omega)] at this

private theorem drain_of_deletes (hl : (l.map DeadLetter.id).Nodup) {fuel : Nat}
    (hfuel : l.length < fuel)
    (h : DeletesFullPages faults k l.length) : drain faults fuel k l = some l := by
  induction fuel generalizing k l with
  | zero => omega
  | succ fuel ih =>
    have hpos : 0 < redeliverAllPageSize := by decide
    rcases Nat.lt_or_ge l.length redeliverAllPageSize with hshort | hfull
    · exact drain_of_lt fuel hshort
    · obtain ⟨hfirst, hrest⟩ := (deletesFullPages_iff hfull).mp h
      have hgone : stuck faults k (l.take redeliverAllPageSize) = [] := by
        rw [stuck_eq_nil_iff (hl.sublist ((take_sublist _ l).map _)),
          length_take_of_le hfull]
        exact hfirst
      rw [drain_of_le fuel hl hfull, hgone, nil_append, ih, Option.map_some,
        take_append_drop]
      · exact hl.sublist ((drop_sublist _ l).map _)
      · rw [length_drop]
        omega
      · rwa [length_drop]

/-- No fewer dead letters are published than there are, and more if a deletion fails on a full
page. -/
theorem length_of_drain (hl : (l.map DeadLetter.id).Nodup) {fuel : Nat}
    {published : List DeadLetter} (h : drain faults fuel k l = some published) :
    l.length ≤ published.length ∧
      (published.length = l.length → DeletesFullPages faults k l.length) := by
  induction fuel generalizing k l published with
  | zero => cases h
  | succ fuel ih =>
    rcases Nat.lt_or_ge l.length redeliverAllPageSize with hshort | hfull
    · obtain rfl : l = published := Option.some.inj ((drain_of_lt fuel hshort).symm.trans h)
      refine ⟨le_rfl, fun _ i hi => ?_⟩
      rw [Nat.div_eq_of_lt hshort] at hi
      omega
    · have hpage : (l.take redeliverAllPageSize).length = redeliverAllPageSize :=
        length_take_of_le hfull
      rw [drain_of_le fuel hl hfull] at h
      obtain ⟨rest, hrest, rfl⟩ := Option.map_eq_some_iff.mp h
      obtain ⟨hle, heq⟩ := ih (nodup_next hl _) hrest
      rw [length_append, length_drop] at hle heq
      rw [length_append, hpage]
      refine ⟨by omega, fun hlen => (deletesFullPages_iff hfull).mpr ?_⟩
      have hgone : (stuck faults k (l.take redeliverAllPageSize)).length = 0 := by omega
      rw [hgone, Nat.zero_add] at heq
      refine ⟨?_, heq (by omega)⟩
      rw [← hpage]
      exact (stuck_eq_nil_iff (hl.sublist ((take_sublist _ l).map _))).mp
        (eq_nil_of_length_eq_zero hgone)

private theorem drain_of_stuck (h : ∀ i, faults i = .before) (hl : redeliverAllPageSize ≤ l.length)
    (fuel : Nat) : drain faults fuel k l = none := by
  have hdeleted : ∀ k page, deleted faults k page = [] := by
    intro k page
    induction page generalizing k with
    | nil => rfl
    | cons dl page ih => rw [deleted, if_pos (h k), ih]
  induction fuel generalizing k with
  | zero => rfl
  | succ fuel ih =>
    have hfull : (l.take redeliverAllPageSize).length = redeliverAllPageSize :=
      length_take_of_le hl
    rw [drain]
    simp [hfull, hdeleted, ih]

end Drain

/-! ### The call -/

/-- The call ends, has put each dead letter of the rule back on the queue once, and returns how many
these are. -/
def RedeliversOnce (t : Tenant) (ruleID : String) (s : DLQStore) (faults : Nat → Fault) : Prop :=
  let letters := s.letters.filter fun dl => dl.ruleID = ruleID
  ∃ fuel tasks,
    let o := (DLQService.redeliver t ruleID fuel []).exec handleDLQ (deletionFaults faults) [] s
    o.value = some (letters.length, none) ∧ o.store.queue = s.queue ++ tasks ∧
      tasks.Perm (letters.map fun dl => dl.requeued t)

/-- **Redelivering all dead letters.** The dead letters of a rule are put back on the queue once
each, and their number is returned, if and only if no deletion fails on a page that is full. -/
theorem redelivers_once_iff (t : Tenant) (ruleID : String) (s : DLQStore) (faults : Nat → Fault) :
    RedeliversOnce t ruleID s faults ↔
      ∀ i < redeliverAllPageSize *
          ((s.letters.filter fun dl => dl.ruleID = ruleID).length / redeliverAllPageSize),
        faults i ≠ .before := by
  have hperm := s.perm_ofRule ruleID
  have hclean : DeletesFullPages faults 0 (s.ofRule ruleID).length ↔
      ∀ i < redeliverAllPageSize *
          ((s.letters.filter fun dl => dl.ruleID = ruleID).length / redeliverAllPageSize),
        faults i ≠ .before := by
    simp only [DeletesFullPages, Nat.zero_add, hperm.length_eq]
  rw [← hclean]
  constructor
  · rintro ⟨fuel, tasks, hvalue, -, -⟩
    obtain ⟨hrun, -⟩ := DLQService.exec_redeliverAll t ruleID faults fuel 0 [] s
    obtain ⟨published, hdrain, hlen⟩ := Option.map_eq_some_iff.mp (hrun.symm.trans hvalue)
    refine (length_of_drain (s.nodup_ofRule ruleID) hdrain).2 ?_
    have := congrArg Prod.fst hlen
    rw [hperm.length_eq]
    simpa using this
  · intro h
    have hdrain : drain faults ((s.ofRule ruleID).length + 1) 0 (s.ofRule ruleID) =
        some (s.ofRule ruleID) :=
      drain_of_deletes (s.nodup_ofRule ruleID) (Nat.lt_succ_self _) h
    obtain ⟨hvalue, hqueue⟩ := DLQService.exec_redeliverAll t ruleID faults
      ((s.ofRule ruleID).length + 1) 0 [] s
    refine ⟨(s.ofRule ruleID).length + 1, _, hvalue.trans ?_, hqueue _ hdrain, hperm.map _⟩
    rw [deletions, hdrain, Option.map_some, Nat.zero_add, hperm.length_eq]

/-- As many dead letters of one rule as fill a page. -/
def fullPage : DLQStore where
  letters := (List.range redeliverAllPageSize).map fun i =>
    { id := Nat.repr i, ruleID := "rule_1", collection := "deals" }
  nodup := by
    rw [map_map]
    refine List.Nodup.map (fun i j h => ?_) nodup_range
    have hdigits := congrArg (fun s => Nat.ofDigitChars 10 s.toList 0) h
    simpa [Function.comp_def, Nat.toList_repr] using hdigits

/-- There are as many dead letters as fill a page, and none of them can be deleted: the call does
not end, however many pages it is given. -/
theorem redelivery_never_ends :
    let faults : Nat → Fault := fun _ => .before
    let t : Tenant := ⟨"acme", "", ""⟩
    (∀ fuel, ((DLQService.redeliver t "rule_1" fuel []).exec handleDLQ (deletionFaults faults) []
      fullPage).value = none) ∧ ¬ RedeliversOnce t "rule_1" fullPage faults := by
  intro faults t
  have hlen : (fullPage.ofRule "rule_1").length = redeliverAllPageSize := by
    rw [(fullPage.perm_ofRule "rule_1").length_eq, fullPage]
    simp [filter_map, Function.comp_def]
  have hnone : ∀ fuel, ((DLQService.redeliver t "rule_1" fuel []).exec handleDLQ
      (deletionFaults faults) [] fullPage).value = none := by
    intro fuel
    refine (DLQService.exec_redeliverAll t "rule_1" faults fuel 0 [] fullPage).1.trans ?_
    rw [drain_of_stuck (fun _ => rfl) hlen.ge]
    rfl
  refine ⟨hnone, ?_⟩
  rintro ⟨fuel, tasks, hvalue, -⟩
  rw [hnone fuel] at hvalue
  cases hvalue

end Letopis
