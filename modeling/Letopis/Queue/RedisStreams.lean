import Mathlib.Data.String.Basic
import Letopis.ForMathlib.SortedAssoc
import Letopis.Storage.Names

/-!
# Messages in Redis Streams

The queue of a deployment of more than one process keeps its messages in streams of a Redis server.
`Publish` writes a message as the fields of one entry, and what a subscription or `Reclaim` reads is
decoded from these. The fields are a map on both sides, so that their order is anyone's, and the
attributes share it with the key and the payload. What is read is what was published all the same
(`Message.decode_of_perm_fields`).

The server, which keeps the entries and hands them out, is not part of the repository and is not
modelled.
-/

namespace Letopis

open List

/-- What a producer hands to the queue. -/
@[ext] structure Message where
  key : String := ""
  payload : String := ""
  /-- A map, as its sorted entries. -/
  attrs : List (String × String) := []
  sorted : SortedAssoc.Sorted attrs := by simp

namespace Message

/-- The field that holds the key. -/
def keyField : String := "key"

/-- The field that holds the payload. -/
def payloadField : String := "payload"

/-- In front of the names of attributes, to tell them from the other fields. -/
def attrPrefix : String := "a:"

/-- The fields of the entry that a message is published as. -/
def fields (m : Message) : List (String × String) :=
  (keyField, m.key) :: (payloadField, m.payload) :: m.attrs.map fun p => (attrPrefix ++ p.1, p.2)

/-- Read one field of an entry. -/
def decodeField (m : Message) (p : String × String) : Message :=
  if p.1 = keyField then { m with key := p.2 }
  else if p.1 = payloadField then { m with payload := p.2 }
  else if startsWith p.1 attrPrefix then
    { m with
      attrs := SortedAssoc.insert (trimStart p.1 attrPrefix) p.2 m.attrs
      sorted := SortedAssoc.sorted_insert m.sorted }
  else m

/-- The message of an entry with these fields. -/
def decode (fields : List (String × String)) : Message := fields.foldl decodeField {}

/-- The attribute that a field is. -/
def attrOf (p : String × String) : Option (String × String) :=
  if startsWith p.1 attrPrefix then some (trimStart p.1 attrPrefix, p.2) else none

private theorem startsWith_append (start rest : String) :
    startsWith (start ++ rest) start = true := by
  simp [startsWith]

private theorem trimStart_append (start rest : String) :
    trimStart (start ++ rest) start = rest := by
  rw [trimStart, if_pos (startsWith_append start rest), String.toList_append, drop_left,
    String.ofList_toList]

private theorem startsWith_reserved :
    startsWith keyField attrPrefix = false ∧ startsWith payloadField attrPrefix = false := by
  decide

/-- No attribute has the name of another field. -/
private theorem attrPrefix_append_ne (name : String) :
    attrPrefix ++ name ≠ keyField ∧ attrPrefix ++ name ≠ payloadField := by
  have hstart := startsWith_append attrPrefix name
  constructor <;> intro heq <;> simp [heq, startsWith_reserved] at hstart

private theorem attrs_decodeField (m : Message) (p : String × String) :
    (m.decodeField p).attrs = SortedAssoc.overlay m.attrs (attrOf p).toList := by
  have hreserved := startsWith_reserved
  unfold decodeField attrOf
  split_ifs <;> simp_all [SortedAssoc.overlay]

/-- What is read from the fields of one name is the value that they have. -/
private theorem get_foldl_decodeField {name v : String} {get : Message → String}
    (hget : ∀ m p, get (decodeField m p) = if p.1 = name then p.2 else get m)
    {fs : List (String × String)} (hfs : ∀ p ∈ fs, p.1 = name → p.2 = v) {m : Message}
    (h : get m = v ∨ (name, v) ∈ fs) : get (fs.foldl decodeField m) = v := by
  induction fs generalizing m with
  | nil => exact h.resolve_right not_mem_nil
  | cons q fs ih =>
    obtain ⟨hq, hfs⟩ := forall_mem_cons.mp hfs
    refine ih hfs ?_
    rw [hget]
    split_ifs with hname
    · exact .inl (hq hname)
    · exact h.imp_right fun h => (mem_cons.mp h).resolve_left fun heq =>
        hname (congrArg Prod.fst heq).symm

private theorem attrs_foldl_decodeField (fs : List (String × String)) (m : Message) :
    (fs.foldl decodeField m).attrs = SortedAssoc.overlay m.attrs (fs.filterMap attrOf) := by
  induction fs generalizing m with
  | nil => rfl
  | cons p fs ih =>
    rw [foldl_cons, ih, attrs_decodeField, filterMap_cons]
    cases attrOf p <;> rfl

private theorem filterMap_attrOf_fields (m : Message) : m.fields.filterMap attrOf = m.attrs := by
  simp [fields, attrOf, startsWith_reserved, startsWith_append, trimStart_append,
    Function.comp_def]

/-- The values of the two fields that are not attributes. -/
private theorem value_of_mem_fields {m : Message} {p : String × String} (hp : p ∈ m.fields) :
    (p.1 = keyField → p.2 = m.key) ∧ (p.1 = payloadField → p.2 = m.payload) := by
  have hne : keyField ≠ payloadField := by decide
  simp only [fields, mem_cons, mem_map] at hp
  obtain rfl | rfl | ⟨q, -, rfl⟩ := hp
  · exact ⟨fun _ => rfl, fun heq => absurd heq hne⟩
  · exact ⟨fun heq => absurd heq.symm hne, fun _ => rfl⟩
  · obtain ⟨hkey, hpayload⟩ := attrPrefix_append_ne q.1
    exact ⟨fun heq => absurd heq hkey, fun heq => absurd heq hpayload⟩

section Perm

variable {m : Message} {fs : List (String × String)} (h : fs.Perm m.fields)

include h

private theorem key_decode : (decode fs).key = m.key := by
  refine @get_foldl_decodeField keyField m.key key (fun m p => ?_) fs
    (fun p hp => (value_of_mem_fields (h.mem_iff.mp hp)).1) {}
    (.inr (h.mem_iff.mpr (by simp [fields])))
  unfold decodeField
  split_ifs <;> rfl

private theorem payload_decode : (decode fs).payload = m.payload := by
  refine @get_foldl_decodeField payloadField m.payload payload (fun m p => ?_) fs
    (fun p hp => (value_of_mem_fields (h.mem_iff.mp hp)).2) {}
    (.inr (h.mem_iff.mpr (by simp [fields])))
  unfold decodeField
  split_ifs <;> simp_all [keyField, payloadField]

private theorem attrs_decode : (decode fs).attrs = m.attrs := by
  rw [decode, attrs_foldl_decodeField]
  refine SortedAssoc.overlay_of_perm m.sorted ?_
  rw [← m.filterMap_attrOf_fields]
  exact h.filterMap attrOf

/-- **Messages survive the queue.** Whatever the names of the attributes are, and in whatever order
the fields are sent and read, the message is the one that was published. -/
theorem decode_of_perm_fields : decode fs = m :=
  Message.ext (key_decode h) (payload_decode h) (attrs_decode h)

end Perm

/-- An attribute may have the name of a field. -/
theorem decode_of_reverse_fields :
    let m : Message := { key := "t1|deals|d1", payload := "p", attrs := [("key", "k")] }
    decode m.fields.reverse = m :=
  decode_of_perm_fields (reverse_perm _)

end Message

end Letopis
