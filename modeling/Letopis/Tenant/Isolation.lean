import Letopis.Service.Async
import Letopis.Service.Rules
import Letopis.Tenant.Resolver

/-!
# Keys of different tenants

Caches, tickets, idempotency records and the groups of a batch are kept apart by keys that are built
from the tenant and a name. The keys of two tenants never meet exactly if neither database name,
followed by the separator, begins with the other, and the group keys differ. Nothing sees to that:
two databases may have the same name at different addresses, and a name may contain a separator.
-/

namespace Letopis

open List

/-! ### The keys -/

/-- The key of a ticket. -/
def ticketKey (t : Tenant) (id : String) : String :=
  "letopis:tkt" ++ ":" ++ t.databaseName ++ ":" ++ id

/-- The key of the group that a fast write goes to. -/
def groupKey (t : Tenant) : String := t.id ++ "|" ++ t.dbName ++ "|" ++ t.dbURI

/-- The keys of two tenants never meet, for the collections that `names` lets through. -/
structure KeysApart (names : String → Prop) (t u : Tenant) : Prop where
  configs : ∀ c d, names c → names d → cacheKey t c ≠ cacheKey u d
  rules : ∀ c d, names c → names d → ruleCacheKey t c ≠ ruleCacheKey u d
  tickets : ∀ i j, ticketKey t i ≠ ticketKey u j
  idempotency : ∀ (ing ing' : AsyncIngester) (cmd cmd' : IngestCommand) (k k' : String),
    names cmd.collection → names cmd'.collection → ing.idempKey cmd = some k →
    ing'.idempKey cmd' = some k' → idempotencyKey t k ≠ idempotencyKey u k'
  groups : groupKey t ≠ groupKey u

/-- Neither database name, followed by the separator, begins with the other. -/
def Tenant.Apart (sep : Char) (t u : Tenant) : Prop :=
  ¬ t.databaseName.toList ++ [sep] <+: u.databaseName.toList ++ [sep] ∧
    ¬ u.databaseName.toList ++ [sep] <+: t.databaseName.toList ++ [sep]

instance (sep : Char) (t u : Tenant) : Decidable (t.Apart sep u) :=
  inferInstanceAs (Decidable (_ ∧ _))

/-! ### Texts -/

/-- Two lists have a common extension exactly if one of them begins with the other. -/
theorem exists_append_eq_append_iff {α : Type} {a b : List α} :
    (∃ x y, a ++ x = b ++ y) ↔ a <+: b ∨ b <+: a := by
  constructor
  · rintro ⟨x, y, h⟩
    exact prefix_or_prefix_of_prefix (prefix_append a x) (h ▸ prefix_append b y)
  · rintro (⟨x, rfl⟩ | ⟨x, rfl⟩)
    · exact ⟨x, [], by simp⟩
    · exact ⟨[], x, by simp⟩

private theorem toList_cacheKey (t : Tenant) (c : String) :
    (cacheKey t c).toList = t.databaseName.toList ++ ['|'] ++ c.toList := by
  simp [cacheKey]

/-- The namespace stays a variable here: a literal would be unfolded to its characters. -/
theorem toList_namespaced (ns name id : String) :
    (ns ++ ":" ++ name ++ ":" ++ id).toList =
      (ns ++ ":").toList ++ (name.toList ++ [':'] ++ id.toList) := by
  simp

private theorem toList_ticketKey (t : Tenant) (id : String) :
    (ticketKey t id).toList =
      ("letopis:tkt" ++ ":").toList ++ (t.databaseName.toList ++ [':'] ++ id.toList) :=
  toList_namespaced ..

private theorem toList_idempotencyKey (t : Tenant) (k : String) :
    (idempotencyKey t k).toList =
      ("letopis:idem" ++ ":").toList ++ (t.databaseName.toList ++ [':'] ++ k.toList) :=
  toList_namespaced ..

/-! ### Tenants -/

namespace Tenant

variable {t u : Tenant} {sep : Char}

private theorem apart_iff : t.Apart sep u ↔ ∀ x y : String,
    t.databaseName.toList ++ [sep] ++ x.toList ≠ u.databaseName.toList ++ [sep] ++ y.toList := by
  rw [Apart, ← not_or, ← exists_append_eq_append_iff]
  constructor
  · exact fun h x y hxy => h ⟨x.toList, y.toList, hxy⟩
  · rintro h ⟨x, y, hxy⟩
    exact h (.ofList x) (.ofList y) (by simpa using hxy)

theorem Apart.databaseName_ne (h : t.Apart sep u) : t.databaseName ≠ u.databaseName :=
  fun heq => h.1 (heq ▸ prefix_rfl)

private theorem apart_iff_tickets : t.Apart ':' u ↔ ∀ i j, ticketKey t i ≠ ticketKey u j := by
  rw [apart_iff]
  refine forall₂_congr fun i j => not_congr ?_
  rw [← String.toList_inj, toList_ticketKey, toList_ticketKey, append_cancel_left_eq]

private theorem apart_iff_configs : t.Apart '|' u ↔ ∀ c d, cacheKey t c ≠ cacheKey u d := by
  rw [apart_iff]
  refine forall₂_congr fun c d => not_congr ?_
  rw [← String.toList_inj, toList_cacheKey, toList_cacheKey]

theorem Apart.idempotency (h : t.Apart ':' u) (k k' : String) :
    idempotencyKey t k ≠ idempotencyKey u k' := by
  intro heq
  rw [← String.toList_inj, toList_idempotencyKey, toList_idempotencyKey,
    append_cancel_left_eq] at heq
  exact apart_iff.mp h k k' heq

/-- For logical names, the settings of databases with different names are apart. -/
theorem cacheKey_ne_of_logicalName (h : t.databaseName ≠ u.databaseName) {c d : String}
    (hc : logicalName c = true) (hd : logicalName d = true) : cacheKey t c ≠ cacheKey u d := by
  have hbar : ∀ {name : String}, logicalName name = true → '|' ∉ name.toList :=
    fun hname hmem => absurd (isLogicalChar_of_mem hname hmem (by decide)) (by decide)
  intro heq
  rw [← String.toList_inj, toList_cacheKey, toList_cacheKey, append_assoc,
    append_assoc] at heq
  exact h (String.toList_inj.mp (Text.append_cons_inj_last (hbar hc) (hbar hd) heq).1)

/-- Where ids and database names have no bar, the group key tells everything. -/
theorem databaseName_eq_of_groupKey
    (hbar : ∀ v ∈ [t, u], '|' ∉ v.id.toList ∧ '|' ∉ v.dbName.toList)
    (h : groupKey t = groupKey u) : t.databaseName = u.databaseName := by
  obtain ⟨⟨hid, hname⟩, hid', hname'⟩ : (_ ∧ _) ∧ _ ∧ _ :=
    ⟨hbar t mem_cons_self, hbar u (by simp)⟩
  have hkey : ∀ v : Tenant, (groupKey v).toList =
      v.id.toList ++ '|' :: (v.dbName.toList ++ '|' :: v.dbURI.toList) := by
    intro v
    simp [groupKey]
  rw [← String.toList_inj, hkey, hkey] at h
  obtain ⟨heq, hrest⟩ := Text.append_cons_inj hid hid' h
  have hdb := (Text.append_cons_inj hname hname' hrest).1
  rw [databaseName, databaseName, String.toList_inj.mp heq, String.toList_inj.mp hdb]

end Tenant

/-- **Keys of two tenants.** For logical collection names, and any ticket and event ids, the keys of
two tenants never meet if and only if neither database name, followed by a colon, begins with the
other, and the group keys differ. For collection names that have not been checked, the same has to
hold with a bar. Where no id and no database name has a bar in it, the group keys take care of
themselves. -/
theorem keysApart_iff (t u : Tenant) :
    (KeysApart (logicalName · = true) t u ↔ t.Apart ':' u ∧ groupKey t ≠ groupKey u) ∧
      (KeysApart (fun _ => True) t u ↔
        t.Apart ':' u ∧ t.Apart '|' u ∧ groupKey t ≠ groupKey u) ∧
      ((∀ v ∈ [t, u], '|' ∉ v.id.toList ∧ '|' ∉ v.dbName.toList) →
        (KeysApart (logicalName · = true) t u ↔ t.Apart ':' u)) := by
  have hlogical : KeysApart (logicalName · = true) t u ↔
      t.Apart ':' u ∧ groupKey t ≠ groupKey u := by
    refine ⟨fun h => ⟨Tenant.apart_iff_tickets.mpr h.tickets, h.groups⟩, fun h => ?_⟩
    have hname := h.1.databaseName_ne
    exact { configs := fun c d hc hd => Tenant.cacheKey_ne_of_logicalName hname hc hd
            rules := fun c d _ _ heq => hname (Prod.mk.inj heq).1
            tickets := Tenant.apart_iff_tickets.mp h.1
            idempotency := fun _ _ _ _ k k' _ _ _ _ => h.1.idempotency k k'
            groups := h.2 }
  refine ⟨hlogical, ⟨fun h => ⟨Tenant.apart_iff_tickets.mpr h.tickets,
    Tenant.apart_iff_configs.mpr fun c d => h.configs c d trivial trivial, h.groups⟩, fun h => ?_⟩,
    fun hbar => hlogical.trans (and_iff_left_of_imp fun h heq => ?_)⟩
  · exact { configs := fun c d _ _ => Tenant.apart_iff_configs.mp h.2.1 c d
            rules := fun c d _ _ heq => h.1.databaseName_ne (Prod.mk.inj heq).1
            tickets := Tenant.apart_iff_tickets.mp h.1
            idempotency := fun _ _ _ _ k k' _ _ _ _ => h.1.idempotency k k'
            groups := h.2.2 }
  · exact h.databaseName_ne (Tenant.databaseName_eq_of_groupKey hbar heq)

/-- Two tenants are accepted whose databases have the same name at different addresses: they share
settings, rules, tickets and idempotency records. Two others are accepted whose databases have
different names, and their fast writes are put into one group. -/
theorem keys_meet :
    let key (k : String) : List KeySpec := [{ plaintext := k, scopes := ["read"] }]
    let one : Spec := ⟨"one", "mongodb://a", "shared", key "1"⟩
    let two : Spec := ⟨"two", "mongodb://b", "shared", key "2"⟩
    let left : Spec := ⟨"a", "", "b|c", []⟩
    let right : Spec := ⟨"a|b", "", "c", []⟩
    (Resolver.newResolver [one, two, left, right]).toBool = true ∧
      one.tenant.dbURI ≠ two.tenant.dbURI ∧
      cacheKey one.tenant "deals" = cacheKey two.tenant "deals" ∧
      ruleCacheKey one.tenant "deals" = ruleCacheKey two.tenant "deals" ∧
      ticketKey one.tenant "t" = ticketKey two.tenant "t" ∧
      idempotencyKey one.tenant "deals|e" = idempotencyKey two.tenant "deals|e" ∧
      left.tenant.databaseName ≠ right.tenant.databaseName ∧
      groupKey left.tenant = groupKey right.tenant := by
  intro key one two left right
  refine ⟨by decide +kernel, by decide, rfl, rfl, rfl, rfl, by decide, by decide⟩

end Letopis
