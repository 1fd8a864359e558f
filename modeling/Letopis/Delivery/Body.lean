import Letopis.Plugin.HashChain
import Letopis.Server.Read

/-!
# The body of a webhook

A webhook carries the event that has fired the rule, "in history format". The two formats are
rendered in different places. The history leaves the value before out of an addition and the value
after out of a removal, and nothing else. The webhook leaves out whatever is null: its fields are
marked `omitempty`, which drops an interface that is nil and keeps false, zero and empty values.

So the lists of changes agree exactly if the value before is null in additions and nowhere else, and
the value after in removals and nowhere else (`body_agrees_iff`).
-/

namespace Letopis

open SortedAssoc List

/-- `encoding/json`: a value that was written is read back. -/
structure JsonText where
  Raw : Type
  marshal : Json → Raw
  unmarshal : Raw → Option Json
  unmarshal_marshal {v : Json} (h : v.WF) : unmarshal (marshal v) = some v

/-! ### Objects with members that may be left out -/

/-- The member of an object under a key. -/
def Json.member? (key : String) : Json → Option Json
  | .obj kvs => kvs.lookup key
  | _ => none

private theorem wf_present {ms : List (String × Option Json)}
    (hkeys : (ms.map Prod.fst).Pairwise (· < ·))
    (hvalues : ∀ m ∈ ms, ∀ v ∈ m.2, v.WF) : (Json.obj (present ms)).WF := by
  rw [Json.wf_obj_iff, sorted_iff_keys]
  exact ⟨hkeys.sublist (keys_present_sublist ms), fun p hp => hvalues _ (mem_present.mp hp) p.2 rfl⟩

/-! ### Changes -/

/-- The members of a change in a response. -/
def ChangeDTO.members (d : ChangeDTO) : List (String × Option Json) :=
  [("new", d.new), ("old", d.old), ("op", some (.str d.op.text)), ("path", some (.str d.path))]

/-- A change in a response, as JSON. -/
def ChangeDTO.json (d : ChangeDTO) : Json := .obj (present d.members)

private theorem ChangeDTO.json_injective : Function.Injective ChangeDTO.json := by
  intro d d' h
  have hmember : ∀ key, (d.members.lookup key).join = (d'.members.lookup key).join := by
    intro key
    have hkeys : ∀ d : ChangeDTO, (d.members.map Prod.fst).Nodup := fun d => by simp [members]
    rw [← lookup_present (hkeys d), ← lookup_present (hkeys d'), Json.obj.inj h]
  have hnew : d.new = d'.new := by simpa [members, lookup_cons_eq] using hmember "new"
  have hold : d.old = d'.old := by simpa [members, lookup_cons_eq] using hmember "old"
  have hop : d.op = d'.op := ChangeOp.text_injective (by
    simpa [members, lookup_cons_eq] using hmember "op")
  have hpath : d.path = d'.path := by
    simpa [members, lookup_cons_eq] using hmember "path"
  cases d
  cases d'
  exact ChangeDTO.mk.injEq .. ▸ ⟨hpath, hop, hold, hnew⟩

/-- A value that `omitempty` leaves out if it is nil. -/
def omitNull (v : Json) : Option Json := if v = .null then none else some v

/-- A change in the body of a webhook. -/
def Change.toWebhookDTO (ch : Change) : ChangeDTO where
  path := ch.path
  op := ch.op
  old := omitNull ch.old
  new := omitNull ch.new

private theorem omitNull_eq_some_iff {v w : Json} : omitNull v = some w ↔ v ≠ .null ∧ v = w := by
  rw [omitNull]
  split_ifs with h <;> simp [h]

/-- Both formats render the change alike: the value before is null in an addition and in no other
change, and the value after in a removal and in no other change. -/
def Change.NullWhereAbsent (ch : Change) : Prop :=
  (ch.old = .null ↔ ch.op = .add) ∧ (ch.new = .null ↔ ch.op = .remove)

instance (ch : Change) : Decidable ch.NullWhereAbsent := inferInstanceAs (Decidable (_ ∧ _))

private theorem Change.toWebhookDTO_eq_iff (ch : Change) :
    ch.toWebhookDTO = ch.toDTO ↔ ch.NullWhereAbsent := by
  rw [toWebhookDTO, toDTO, ChangeDTO.mk.injEq, NullWhereAbsent, omitNull, omitNull]
  cases ch.op <;> by_cases hold : ch.old = .null <;> by_cases hnew : ch.new = .null <;>
    simp [hold, hnew]

/-! ### The body -/

/-- The members of the event. -/
def eventMembers (collection : String) (ev : Event) : List (String × Option Json) :=
  [("author_id", (ifSet ev.author).map .str),
    ("changes", some (.arr (ev.changes.map fun ch => ch.toWebhookDTO.json))),
    ("collection", some (.str collection)),
    ("entity_id", some (.str ev.entityID)),
    ("meta", if ev.metadata = [] then none else some (.obj ev.metadata)),
    ("op", some (.str ev.op.text)),
    ("source", (ifSet ev.source).map .str),
    ("ts_received", some (.str ev.tsReceived.format)),
    ("version", some (.num (.ofInt ev.version)))]

/-- The members of the rule in the body of a webhook. -/
def ruleMembers (ruleID ruleName : String) : List (String × Option Json) :=
  [("id", some (.str ruleID)), ("name", (ifSet ruleName).map .str)]

/-- The body of a webhook, as JSON. -/
def webhookBody (collection : String) (ev : Event) (ruleID ruleName : String) : Json :=
  let members : List (String × Option Json) :=
    [("event", some (.obj (present (eventMembers collection ev)))),
      ("rule", some (.obj (present (ruleMembers ruleID ruleName))))]
  .obj (present members)

/-- `BuildBody`: the text that is signed and sent. -/
def buildBody (js : JsonText) (collection : String) (ev : Event) (ruleID ruleName : String) :
    js.Raw :=
  js.marshal (webhookBody collection ev ruleID ruleName)

/-- What a receiver reads as the list of changes. -/
def receivedChanges (js : JsonText) (body : js.Raw) : Option Json :=
  ((js.unmarshal body).bind (Json.member? "event")).bind (Json.member? "changes")

/-- The list of changes of an event in a history, as JSON. -/
def historyChanges (ev : Event) : Option Json :=
  match projectChanges ev.changes .native with
  | some (.native changes) => some (.arr (changes.map ChangeDTO.json))
  | _ => none

private theorem wf_json {ch : Change} (h : ch.old.WF ∧ ch.new.WF) : ch.toWebhookDTO.json.WF := by
  have hkeys : ["new", "old", "op", "path"].Pairwise (· < ·) := by decide +kernel
  refine wf_present hkeys ?_
  simp only [ChangeDTO.members, Change.toWebhookDTO, forall_mem_cons, Option.mem_def,
    omitNull_eq_some_iff, Option.some.injEq, not_mem_nil, false_imp_iff, implies_true,
    and_true]
  refine ⟨?_, ?_, ?_, ?_⟩
  · rintro v ⟨-, rfl⟩
    exact h.2
  · rintro v ⟨-, rfl⟩
    exact h.1
  · rintro v rfl
    rfl
  · rintro v rfl
    rfl

private theorem wf_webhookBody {ev : Event} (h : ev.Valued) (collection ruleID ruleName : String) :
    (webhookBody collection ev ruleID ruleName).WF := by
  have hsome : ∀ w : Json, w.WF → ∀ v ∈ some w, v.WF := fun w hw v hv => Option.some.inj hv ▸ hw
  have hstr : ∀ s : String, ∀ v ∈ some (Json.str s), v.WF := fun s => hsome _ rfl
  have hset : ∀ s : String, ∀ v ∈ (ifSet s).map Json.str, v.WF := by
    intro s v hv
    obtain ⟨text, -, rfl⟩ := Option.map_eq_some_iff.mp hv
    rfl
  have hchanges : (Json.arr (ev.changes.map fun ch => ch.toWebhookDTO.json)).WF := by
    rw [Json.wf_arr_iff, length_map, forall_mem_map]
    exact ⟨h.length, fun ch hch => wf_json (h.changes ch hch)⟩
  have hmeta : ∀ v ∈ (if ev.metadata = [] then none else some (Json.obj ev.metadata)), v.WF := by
    intro v hv
    split_ifs at hv
    · cases hv
    · exact Option.some.inj hv ▸ h.metadata
  have hevent : (Json.obj (present (eventMembers collection ev))).WF := by
    have hkeys : ["author_id", "changes", "collection", "entity_id", "meta", "op", "source",
        "ts_received", "version"].Pairwise (· < ·) := by decide +kernel
    refine wf_present hkeys ?_
    simp only [eventMembers, forall_mem_cons, not_mem_nil, false_imp_iff, implies_true,
      and_true]
    exact ⟨hset _, hsome _ hchanges, hstr _, hstr _, hmeta, hstr _, hset _, hstr _, hsome _ rfl⟩
  have hrule : (Json.obj (present (ruleMembers ruleID ruleName))).WF := by
    have hkeys : ["id", "name"].Pairwise (· < ·) := by decide +kernel
    refine wf_present hkeys ?_
    simp only [ruleMembers, forall_mem_cons, not_mem_nil, false_imp_iff, implies_true,
      and_true]
    exact ⟨hstr _, hset _⟩
  have hkeys : ["event", "rule"].Pairwise (· < ·) := by decide +kernel
  refine wf_present hkeys ?_
  simp only [forall_mem_cons, not_mem_nil, false_imp_iff, implies_true, and_true]
  exact ⟨hsome _ hevent, hsome _ hrule⟩

private theorem receivedChanges_buildBody (js : JsonText) {ev : Event} (h : ev.Valued)
    (collection ruleID ruleName : String) :
    receivedChanges js (buildBody js collection ev ruleID ruleName) =
      some (.arr (ev.changes.map fun ch => ch.toWebhookDTO.json)) := by
  rw [receivedChanges, buildBody, js.unmarshal_marshal (wf_webhookBody h ..), Option.bind_some]
  have hevent : Json.member? "event" (webhookBody collection ev ruleID ruleName) =
      some (.obj (present (eventMembers collection ev))) := rfl
  rw [hevent, Option.bind_some, Json.member?, lookup_present (by simp [eventMembers])]
  rfl

/-- **Webhooks and histories.** The list of changes that a receiver reads from the body of a webhook
is that of the history if and only if in every change the value before is null exactly if it is an
addition, and the value after exactly if it is a removal. -/
theorem body_agrees_iff (js : JsonText) (collection : String) (ev : Event)
    (ruleID ruleName : String) (h : ev.Valued) :
    receivedChanges js (buildBody js collection ev ruleID ruleName) = historyChanges ev ↔
      ∀ ch ∈ ev.changes, ch.NullWhereAbsent := by
  have hhist : historyChanges ev = some (.arr (ev.changes.map fun ch => ch.toDTO.json)) := by
    simp [historyChanges, projectChanges]
  rw [receivedChanges_buildBody js h, hhist, Option.some.injEq, Json.arr.injEq, map_inj_left]
  refine forall_congr' fun ch => imp_congr_right fun _ => ?_
  rw [ChangeDTO.json_injective.eq_iff, ch.toWebhookDTO_eq_iff]

/-- Texts that are the values they stand for. -/
def JsonText.ofValues : JsonText where
  Raw := Json
  marshal v := v
  unmarshal v := some v
  unmarshal_marshal _ := rfl

/-- An owner is set and a flag is cleared: nothing is null, and the lists agree. -/
theorem body_agrees_iff_cleared :
    let ev : Event :=
      { entityID := "d1", version := 2, op := .update,
        changes := [⟨"flag", .change, .bool true, .bool false⟩, ⟨"owner", .add, .null, .str "u1"⟩] }
    receivedChanges JsonText.ofValues (buildBody JsonText.ofValues "deals" ev "rule_1" "") =
      historyChanges ev := by
  intro ev
  refine (body_agrees_iff JsonText.ofValues "deals" ev "rule_1" "" ⟨?_, ?_, ?_⟩).mpr ?_
  all_goals decide +kernel

/-- An owner is set to null. In the history the change has a new value, in the webhook it has none,
as if the owner had been removed. -/
theorem webhook_drops_null :
    let ev : Event :=
      { entityID := "d1", version := 2, op := .update,
        changes := [⟨"owner", .change, .str "u1", .null⟩] }
    let read := receivedChanges JsonText.ofValues
      (buildBody JsonText.ofValues "deals" ev "rule_1" "")
    read = some (.arr [.obj [("old", .str "u1"), ("op", .str "change"), ("path", .str "owner")]]) ∧
      historyChanges ev = some (.arr [.obj [("new", .null), ("old", .str "u1"),
        ("op", .str "change"), ("path", .str "owner")]]) ∧
      read ≠ historyChanges ev := by
  decide +kernel

end Letopis
