import Mathlib.Data.List.Basic
import Mathlib.Tactic.SplitIfs

/-!
# Collection names

A logical collection name is a list of dot-separated segments of lower-case letters and digits. Its
events, current states and snapshots are in three physical collections, whose names are the logical
name with dots flattened to underscores, behind a text that tells the kind. No logical name has an
underscore, so the flattening can be undone, and no physical name is that of another collection
(`physical_names_apart`).
-/

namespace Letopis

open List

/-- `[a-z0-9]`. -/
def isLogicalChar (c : Char) : Bool := c.isLower || c.isDigit

/-- `^[a-z0-9]+(?:\.[a-z0-9]+)*$`. -/
def logicalName (name : String) : Bool :=
  (name.toList.splitOn '.').all fun segment => !segment.isEmpty && segment.all isLogicalChar

private theorem exists_mem_splitOn {α : Type} [BEq α] [LawfulBEq α] {sep x : α} {l : List α}
    (hx : x ∈ l) (hsep : x ≠ sep) : ∃ part ∈ l.splitOn sep, x ∈ part := by
  induction l with
  | nil => exact absurd hx not_mem_nil
  | cons y l ih =>
    rw [List.splitOn, splitOnP_cons_eq_if_modifyHead, ← List.splitOn]
    split_ifs with hy
    · have hne : x ≠ y := fun h => hsep (h.trans (eq_of_beq hy))
      obtain ⟨part, hpart, hmem⟩ := ih ((mem_cons.mp hx).resolve_left hne)
      exact ⟨part, mem_cons_of_mem _ hpart, hmem⟩
    · obtain ⟨first, rest, hsplit⟩ := exists_cons_of_ne_nil (l.splitOn_ne_nil sep)
      rw [hsplit, modifyHead_cons]
      rcases mem_cons.mp hx with rfl | hx
      · exact ⟨x :: first, mem_cons_self, mem_cons_self⟩
      · obtain ⟨part, hpart, hmem⟩ := ih hx
        rw [hsplit] at hpart
        rcases mem_cons.mp hpart with rfl | hpart
        · exact ⟨y :: part, mem_cons_self, mem_cons_of_mem _ hmem⟩
        · exact ⟨part, mem_cons_of_mem _ hpart, hmem⟩

theorem isLogicalChar_of_mem {name : String} (h : logicalName name = true) {c : Char}
    (hc : c ∈ name.toList) (hdot : c ≠ '.') : isLogicalChar c = true := by
  obtain ⟨part, hpart, hmem⟩ := exists_mem_splitOn hc hdot
  have hall := all_eq_true.mp h part hpart
  rw [Bool.and_eq_true] at hall
  exact all_eq_true.mp hall.2 c hmem

/-- Why a collection name is refused. -/
inductive NameErr where
  | empty
  | invalid (name : String)
  deriving DecidableEq

/-- Check the name of a collection. -/
def validateLogical (name : String) : Except NameErr Unit :=
  if name = "" then .error .empty
  else if !logicalName name then .error (.invalid name)
  else .ok ()

theorem validateLogical_eq_ok {name : String} :
    validateLogical name = .ok () ↔ logicalName name = true := by
  rw [validateLogical]
  split_ifs with hempty hlogical
  · subst hempty
    exact iff_of_false (fun h => nomatch h) (by decide)
  · exact iff_of_false (fun h => nomatch h) (by simpa using hlogical)
  · exact iff_of_true rfl (by simpa using hlogical)

/-! ### Physical names -/

/-- Replace every occurrence of a character. -/
def replaceAll (s : String) (old new : Char) : String :=
  String.ofList (s.toList.map fun c => if c = old then new else c)

/-- The first text is the beginning of the second. -/
def startsWith (s start : String) : Bool := start.toList.isPrefixOf s.toList

/-- Cut off a text at the beginning, if it stands there. -/
def trimStart (s start : String) : String :=
  if startsWith s start then String.ofList (s.toList.drop start.toList.length) else s

/-- In front of the names of collections of events. -/
def prefixEvents : String := "ev_"

/-- In front of the names of collections of current states. -/
def prefixCurrent : String := "cur_"

/-- In front of the names of collections of snapshots. -/
def prefixSnap : String := "sn_"

/-- The collections that belong to no logical collection: settings, rules, dead letters, activities
and the administrative log. -/
def systemCollections : List String := ["_collections", "_rules", "_dlq", "ev__flow", "ev__system"]

/-- Join the text for the kind with the flattened logical name. -/
def physicalName (start logical : String) : String := start ++ replaceAll logical '.' '_'

/-- The collection of events. -/
def eventsCollection (logical : String) : String := physicalName prefixEvents logical

/-- The collection of current states. -/
def currentCollection (logical : String) : String := physicalName prefixCurrent logical

/-- The collection of snapshots. -/
def snapCollection (logical : String) : String := physicalName prefixSnap logical

/-- The logical name of a collection of events. -/
def logicalFromEvents (physical : String) : String :=
  replaceAll (trimStart physical prefixEvents) '_' '.'

/-- The physical name is that of a user's collection of events. -/
def isUserEventCollection (name : String) : Bool :=
  startsWith name prefixEvents && !startsWith name (prefixEvents ++ "_")

/-- The kinds of physical collections of a logical one. -/
inductive PhysicalKind where
  | events
  | current
  | snap
  deriving DecidableEq

namespace PhysicalKind

/-- What the names of the kind start with. -/
def start : PhysicalKind → String
  | .events => prefixEvents
  | .current => prefixCurrent
  | .snap => prefixSnap

/-- The physical collection of a kind. -/
def collection : PhysicalKind → String → String
  | .events => eventsCollection
  | .current => currentCollection
  | .snap => snapCollection

private theorem collection_eq (k : PhysicalKind) : k.collection = physicalName k.start := by
  cases k <;> rfl

private theorem toList_start (k : PhysicalKind) : k.start.toList = match k with
    | .events => ['e', 'v', '_']
    | .current => ['c', 'u', 'r', '_']
    | .snap => ['s', 'n', '_'] := by
  cases k <;> rfl

end PhysicalKind

section Physical

variable {name : String}

private theorem toList_physicalName (start logical : String) : (physicalName start logical).toList =
    start.toList ++ logical.toList.map fun c => if c = '.' then '_' else c := by
  rw [physicalName, replaceAll, String.toList_append, String.toList_ofList]

private theorem underscore_notMem (h : logicalName name = true) : '_' ∉ name.toList := fun hmem =>
  absurd (isLogicalChar_of_mem h hmem (by decide)) (by decide)

private theorem exists_head (h : logicalName name = true) : ∃ c rest, name.toList = c :: rest ∧
    c ≠ '.' ∧ c ≠ '_' := by
  cases hname : name.toList with
  | nil => simp [logicalName, hname, List.splitOn] at h
  | cons c rest =>
    refine ⟨c, rest, rfl, ?_, ?_⟩
    · rintro rfl
      rw [logicalName, hname, List.splitOn, splitOnP_cons_eq_if_modifyHead] at h
      simp at h
    · rintro rfl
      exact underscore_notMem h (by rw [hname]; exact mem_cons_self)

private theorem replaceAll_replaceAll (h : '_' ∉ name.toList) :
    replaceAll (replaceAll name '.' '_') '_' '.' = name := by
  rw [replaceAll, replaceAll, String.toList_ofList, map_map]
  refine (congrArg String.ofList ((map_congr_left fun c hc => ?_).trans
    (map_id _))).trans String.ofList_toList
  have hne : c ≠ '_' := fun heq => h (heq ▸ hc)
  by_cases hdot : c = '.'
  · simp [hdot]
  · simp [hdot, hne]

private theorem exists_head_physicalName (h : logicalName name = true) (start : String) :
    ∃ c rest, (physicalName start name).toList = start.toList ++ c :: rest ∧ c ≠ '_' := by
  obtain ⟨c, rest, hname, hdot, hunder⟩ := exists_head h
  refine ⟨c, rest.map fun c => if c = '.' then '_' else c, ?_, hunder⟩
  rw [toList_physicalName, hname, map_cons, if_neg hdot]

private theorem physicalName_inj {start name' : String} (h : logicalName name = true)
    (h' : logicalName name' = true) (heq : physicalName start name = physicalName start name') :
    name = name' := by
  have hflat : replaceAll name '.' '_' = replaceAll name' '.' '_' :=
    (String.append_right_inj start).mp heq
  rw [← replaceAll_replaceAll (underscore_notMem h), hflat,
    replaceAll_replaceAll (underscore_notMem h')]

private theorem start_inj {k l : PhysicalKind} {name' : String}
    (heq : physicalName k.start name = physicalName l.start name') : k = l := by
  have hlist := congrArg String.toList heq
  rw [toList_physicalName, toList_physicalName, k.toList_start, l.toList_start] at hlist
  cases k <;> cases l <;> simp at hlist ⊢

private theorem toList_systemCollections : systemCollections.map String.toList =
    [['_', 'c', 'o', 'l', 'l', 'e', 'c', 't', 'i', 'o', 'n', 's'], ['_', 'r', 'u', 'l', 'e', 's'],
      ['_', 'd', 'l', 'q'], ['e', 'v', '_', '_', 'f', 'l', 'o', 'w'],
      ['e', 'v', '_', '_', 's', 'y', 's', 't', 'e', 'm']] := rfl

private theorem physicalName_notMem_system (h : logicalName name = true) (k : PhysicalKind) :
    physicalName k.start name ∉ systemCollections := by
  intro hmem
  obtain ⟨c, rest, hlist, hunder⟩ := exists_head_physicalName h k.start
  have hchars := mem_map_of_mem (f := String.toList) hmem
  rw [hlist, k.toList_start, toList_systemCollections] at hchars
  -- only the events start as a system collection does, and the next character tells them apart
  cases k <;> simp [hunder] at hchars

private theorem logicalFromEvents_eventsCollection (h : logicalName name = true) :
    logicalFromEvents (eventsCollection name) = name := by
  have hstart : startsWith (eventsCollection name) prefixEvents = true := by
    rw [startsWith, eventsCollection, toList_physicalName, isPrefixOf_iff_prefix]
    exact prefix_append _ _
  have htrim : trimStart (eventsCollection name) prefixEvents = replaceAll name '.' '_' := by
    rw [trimStart, if_pos hstart, eventsCollection, toList_physicalName, drop_left, replaceAll]
  rw [logicalFromEvents, htrim, replaceAll_replaceAll (underscore_notMem h)]

private theorem isUserEventCollection_eventsCollection (h : logicalName name = true) :
    isUserEventCollection (eventsCollection name) = true := by
  obtain ⟨c, rest, hlist, hunder⟩ := exists_head_physicalName h prefixEvents
  have hshort : prefixEvents.toList = ['e', 'v', '_'] := rfl
  have hlong : (prefixEvents ++ "_").toList = ['e', 'v', '_', '_'] := rfl
  rw [isUserEventCollection, startsWith, startsWith, eventsCollection, hlist, hshort, hlong]
  simp [List.isPrefixOf, hunder.symm]

/-- No collection of another kind is taken for one of events, whatever the name. -/
theorem isUserEventCollection_of_ne {k : PhysicalKind} (hk : k ≠ .events) (name : String) :
    isUserEventCollection (k.collection name) = false := by
  have hshort : prefixEvents.toList = ['e', 'v', '_'] := rfl
  have hstart : startsWith (k.collection name) prefixEvents = false := by
    rw [startsWith, k.collection_eq, toList_physicalName, k.toList_start, hshort]
    cases k with
    | events => exact absurd rfl hk
    | current => rfl
    | snap => rfl
  rw [isUserEventCollection, hstart, Bool.false_and]

private theorem isUserEventCollection_system :
    ∀ n ∈ systemCollections, isUserEventCollection n = false := by
  decide

/-- The logical names behind a listing of the physical collections, as the reading of a flow sweeps
them. -/
def sweptCollections (names : List String) : List String :=
  (names.filter isUserEventCollection).map logicalFromEvents

/-- The sweep of a database that holds collections of valid names, next to the system's own, meets
each logical collection that has events and no other. -/
theorem mem_sweptCollections_iff {names : List String}
    (h : ∀ n ∈ names, n ∈ systemCollections ∨
      ∃ (k : PhysicalKind) (c : String), logicalName c = true ∧ n = k.collection c) :
    name ∈ sweptCollections names ↔ logicalName name = true ∧ eventsCollection name ∈ names := by
  rw [sweptCollections, mem_map]
  constructor
  · rintro ⟨n, hn, rfl⟩
    obtain ⟨hmem, huser⟩ := mem_filter.mp hn
    rcases h n hmem with hsystem | ⟨k, c, hc, rfl⟩
    · exact absurd huser (by simp [isUserEventCollection_system n hsystem])
    · by_cases hk : k = .events
      · subst hk
        have hback : logicalFromEvents (PhysicalKind.events.collection c) = c :=
          logicalFromEvents_eventsCollection hc
        exact ⟨hback.symm ▸ hc, hback.symm ▸ hmem⟩
      · exact absurd huser (by simp [isUserEventCollection_of_ne hk c])
  · rintro ⟨hname, hmem⟩
    exact ⟨eventsCollection name,
      mem_filter.mpr ⟨hmem, isUserEventCollection_eventsCollection hname⟩,
      logicalFromEvents_eventsCollection hname⟩

/-- A database with one collection. -/
theorem mem_sweptCollections_deals :
    "deals" ∈ sweptCollections [currentCollection "deals", eventsCollection "deals"] :=
  (mem_sweptCollections_iff (forall_mem_cons.mpr ⟨.inr ⟨.current, "deals", by decide, rfl⟩,
    forall_mem_singleton.mpr (.inr ⟨.events, "deals", by decide, rfl⟩)⟩)).mpr
    ⟨by decide, mem_cons_of_mem _ (mem_singleton_self _)⟩

/-- **Physical names.** The names of the physical collections of valid logical ones differ when the
kind or the logical name does, and none of them is a system collection's. From the name of the
events the logical name is recovered, and the events of a valid logical collection are what
`isUserEventCollection` selects: neither states nor snapshots nor a system collection. -/
theorem physical_names_apart :
    (∀ (k l : PhysicalKind) c d, validateLogical c = .ok () → validateLogical d = .ok () →
      (k.collection c = l.collection d ↔ k = l ∧ c = d)) ∧
    (∀ (k : PhysicalKind) c, validateLogical c = .ok () → k.collection c ∉ systemCollections) ∧
    (∀ c, validateLogical c = .ok () → logicalFromEvents (eventsCollection c) = c) ∧
    (∀ c, validateLogical c = .ok () → isUserEventCollection (eventsCollection c) = true) ∧
    (∀ c, isUserEventCollection (currentCollection c) = false ∧
      isUserEventCollection (snapCollection c) = false) ∧
    ∀ n ∈ systemCollections, isUserEventCollection n = false := by
  refine ⟨fun k l c d hc hd => ?_, fun k c hc => ?_, fun c hc => ?_, fun c hc => ?_, fun c => ?_,
    isUserEventCollection_system⟩
  · rw [k.collection_eq, l.collection_eq]
    refine ⟨fun heq => ?_, fun ⟨hk, hname⟩ => by rw [hk, hname]⟩
    obtain rfl := start_inj heq
    exact ⟨rfl, physicalName_inj (validateLogical_eq_ok.mp hc) (validateLogical_eq_ok.mp hd) heq⟩
  · rw [k.collection_eq]
    exact physicalName_notMem_system (validateLogical_eq_ok.mp hc) k
  · exact logicalFromEvents_eventsCollection (validateLogical_eq_ok.mp hc)
  · exact isUserEventCollection_eventsCollection (validateLogical_eq_ok.mp hc)
  · have hcurrent : PhysicalKind.current ≠ .events := by decide
    have hsnap : PhysicalKind.snap ≠ .events := by decide
    exact ⟨isUserEventCollection_of_ne hcurrent c, isUserEventCollection_of_ne hsnap c⟩

/-- The events of `crm.deals` and `crmdeals` are in two collections. -/
theorem physical_names_apart_deals :
    PhysicalKind.events.collection "crm.deals" ≠ PhysicalKind.events.collection "crmdeals" ∧
      logicalFromEvents (eventsCollection "crm.deals") = "crm.deals" := by
  refine ⟨fun heq => ?_, physical_names_apart.2.2.1 _ (by decide)⟩
  have hnames := (physical_names_apart.1 _ _ _ _ (by decide) (by decide)).mp heq
  exact absurd hnames.2 (by decide)

end Physical

end Letopis
