import Letopis.Plugin.HashChain

/-!
# Tamper evidence

The last hash of a chain determines the whole chain: its collection, its length and, event by
event, every signed field. The proof goes backwards from the last hash. Equal hashes are hashes
of equal messages, since SHA-256 does not collide on the messages of the two chains. A message
is a hash, of a fixed length, followed by the canonical form of an event, so equal messages
have equal hashes and equal events; and no such message is one that a genesis hash is taken
over, so the two chains begin together.
-/

namespace Letopis

open List

private theorem EntityOp.text_injective : Function.Injective EntityOp.text := by
  rintro (_ | _ | _) (_ | _ | _) h
  all_goals first | rfl | exact absurd h (by decide)

namespace HashChain

/-! ### What a canonical form says -/

theorem lookup_put {key key' : String} {present : Bool} {value : Json} {m : Fields} :
    (put key present value m).lookup key' =
      if present = true ∧ key' = key then some value else m.lookup key' := by
  unfold put
  split_ifs with hp hk hk
  · rw [SortedAssoc.lookup_insert, if_pos hk.2]
  · rw [SortedAssoc.lookup_insert, if_neg fun h => hk ⟨hp, h⟩]
  · exact absurd hk.1 hp
  · rfl

private theorem eq_of_present {α : Type} [DecidableEq α] {enc : α → Json}
    (henc : Function.Injective enc) {zero a b : α} (h : (if a = zero then none else some (enc a)) =
      if b = zero then none else some (enc b)) : a = b := by
  split_ifs at h with ha hb hb
  · rw [ha, hb]
  · exact henc (Option.some.inj h)

private theorem str_injective : Function.Injective Json.str := fun _ _ h => Json.str.inj h

/-- Two changes agree on what their op signs. -/
structure AgreeingChanges (c d : Change) : Prop where
  path : c.path = d.path
  op : c.op = d.op
  old : c.op ≠ .add → c.old = d.old
  /-- The value after, unless the change removes one. -/
  new : c.op ≠ .remove → c.new = d.new

/-- The three shapes of a change are one, with its values present as the op signs them. -/
theorem canonicalChange_eq (c : Change) : canonicalChange c =
    .obj (put "new" (c.op ≠ .remove) c.new (put "old" (c.op ≠ .add) c.old
      [("op", .str c.op.text), ("path", .str c.path)])) := by
  obtain ⟨path, op, old, new⟩ := c
  cases op <;> rfl

private theorem agreeing_of_canonicalChange {c d : Change}
    (h : canonicalChange c = canonicalChange d) : AgreeingChanges c d := by
  rw [canonicalChange_eq, canonicalChange_eq, Json.obj.injEq] at h
  have hpath := congrArg (List.lookup "path") h
  have hop := congrArg (List.lookup "op") h
  have hold := congrArg (List.lookup "old") h
  have hnew := congrArg (List.lookup "new") h
  simp [lookup_put, SortedAssoc.lookup_cons_eq] at hpath hop hold hnew
  have hop' := ChangeOp.text_injective hop
  rw [← hop'] at hold hnew
  refine ⟨hpath, hop', fun hadd => ?_, fun hremove => ?_⟩
  · simpa [hadd] using hold
  · simpa [hremove] using hnew

private theorem canonicalRef_injective : Function.Injective canonicalRef := by
  intro r s h
  rw [canonicalRef, canonicalRef, Json.obj.injEq] at h
  have hactivity := congrArg (List.lookup "activity_id") h
  have hcollection := congrArg (List.lookup "collection") h
  have hentity := congrArg (List.lookup "entity_id") h
  have hevent := congrArg (List.lookup "event_id") h
  have hversion := congrArg (List.lookup "version") h
  simp [lookup_put] at hactivity hcollection hentity hevent hversion
  have hnum : Function.Injective fun v => Json.num (.ofInt v) :=
    fun v w hvw => Number.ofInt_injective (Json.num.inj hvw)
  obtain ⟨a, c, e, v, i⟩ := r
  obtain ⟨a', c', e', v', i'⟩ := s
  congr
  · exact eq_of_present str_injective hactivity
  · exact eq_of_present str_injective hcollection
  · exact eq_of_present str_injective hentity
  · exact eq_of_present hnum hversion
  · exact eq_of_present str_injective hevent

private theorem canonicalFlow_injective : Function.Injective canonicalFlow := by
  intro f g h
  rw [canonicalFlow, canonicalFlow, Json.obj.injEq] at h
  have hid := congrArg (List.lookup "id") h
  have hstep := congrArg (List.lookup "step") h
  have hcaused := congrArg (List.lookup "caused_by") h
  simp [lookup_put] at hid hstep hcaused
  have harr : Function.Injective fun refs : List FlowRef =>
      Json.arr (refs.map canonicalRef) :=
    fun refs refs' hr => canonicalRef_injective.list_map (Json.arr.inj hr)
  obtain ⟨id, causedBy, step⟩ := f
  obtain ⟨id', causedBy', step'⟩ := g
  congr
  · exact eq_of_present str_injective hid
  · exact eq_of_present harr hcaused
  · exact eq_of_present str_injective hstep

/-- Two projections agree on everything that is signed. -/
structure Agrees (p q : Projection) : Prop where
  op : p.op = q.op
  entityID : p.entityID = q.entityID
  author : p.author = q.author
  source : p.source = q.source
  /-- When the source observed it, to the millisecond. -/
  tsSource : p.tsSource.truncate Time.millisecond = q.tsSource.truncate Time.millisecond
  flow : p.flow = q.flow
  changes : List.Forall₂ AgreeingChanges p.changes q.changes

private theorem forall₂_of_map_eq {cs ds : List Change}
    (h : cs.map canonicalChange = ds.map canonicalChange) :
    List.Forall₂ AgreeingChanges cs ds := by
  induction cs generalizing ds with
  | nil =>
    cases ds with
    | nil => exact .nil
    | cons d ds => cases h
  | cons c cs ih =>
    cases ds with
    | nil => cases h
    | cons d ds =>
      rw [map_cons, map_cons, List.cons.injEq] at h
      exact .cons (agreeing_of_canonicalChange h.1) (ih h.2)

/-- **The canonical form determines the signed fields.** -/
theorem agrees_of_fields {p q : Projection} (h : p.fields = q.fields) : Agrees p q := by
  have hop := congrArg (List.lookup "op") h
  have hentity := congrArg (List.lookup "entity_id") h
  have hauthor := congrArg (List.lookup "author") h
  have hsource := congrArg (List.lookup "source") h
  have hts := congrArg (List.lookup "ts_source") h
  have hflow := congrArg (List.lookup "flow") h
  have hchanges := congrArg (List.lookup "changes") h
  simp [Projection.fields, lookup_put, SortedAssoc.lookup_cons_eq]
    at hop hentity hauthor hsource hts hflow hchanges
  refine ⟨EntityOp.text_injective hop, hentity, eq_of_present str_injective hauthor,
    eq_of_present str_injective hsource, ?_, ?_, ?_⟩
  · split_ifs at hts with hp hq hq
    · exact Time.format_injective (Json.str.inj (Option.some.inj hts))
    · -- both are absent, so both are the zero time
      have hzero : ∀ t : Time, ¬ t.isZero = false → t = .zero := by
        rintro ⟨ns⟩ hns
        simpa [Time.isZero, Time.zero] using hns
      rw [hzero _ hp, hzero _ hq]
  · cases hp : p.flow with
    | none =>
      cases hq : q.flow with
      | none => rfl
      | some g => simp [hp, hq] at hflow
    | some f =>
      cases hq : q.flow with
      | none => simp [hp, hq] at hflow
      | some g =>
        simp only [hp, hq, Option.isSome_some, if_true, Option.map_some, Option.getD_some,
          Option.some.injEq] at hflow
        rw [canonicalFlow_injective hflow]
  · split_ifs at hchanges with hp hq hq
    · rw [hp, hq]
      exact .nil
    · exact forall₂_of_map_eq (Json.arr.inj (Option.some.inj hchanges))

/-! ### What a hash says -/

theorem sum256_eq_of_digest {x y : List UInt8} (h : digest x = digest y) :
    Sha256.sum256 x = Sha256.sum256 y := by
  have hlist := congrArg String.toList h
  simp only [digest, String.toList_append, String.toList_ofList] at hlist
  exact Text.hex_injective (append_cancel_left hlist)

private theorem length_digest (x : List UInt8) : (Text.bytes (digest x)).length = 71 := by
  have hscheme : (Text.bytes hashScheme).length = 7 := by decide
  rw [digest, Text.bytes_append, length_append, hscheme,
    Text.length_bytes_ofList fun _ => Text.ascii_of_mem_hex, Text.length_hex, Sha256.length_sum256]

private theorem genesis_ne_link (c : String) (x rest : List UInt8) :
    Text.bytes (genesisPrefix ++ c) ≠ Text.bytes (digest x) ++ rest := by
  intro h
  have hhead := congrArg List.head? h
  have hg : (Text.bytes genesisPrefix).head? = some 108 := by decide
  have hs : (Text.bytes hashScheme).head? = some 115 := by decide
  rw [digest, Text.bytes_append, Text.bytes_append, append_assoc, head?_append, hg,
    head?_append, hs] at hhead
  cases hhead

/-! ### Chains -/

/-- The last hash of a chain from the collection's genesis. -/
def chain (c : String) (ps : List Projection) : String := ps.foldl hash (genesis c)

/-- The messages that are hashed on the way from a hash. -/
def messagesFrom (prevHash : String) : List Projection → List (List UInt8)
  | [] => []
  | p :: ps => (Text.bytes prevHash ++ canonical p) :: messagesFrom (hash prevHash p) ps

/-- The messages that are hashed in a chain. -/
def messages (c : String) (ps : List Projection) : List (List UInt8) :=
  Text.bytes (genesisPrefix ++ c) :: messagesFrom (genesis c) ps

private theorem chain_concat (c : String) (ps : List Projection) (p : Projection) :
    chain c (ps ++ [p]) = hash (chain c ps) p := foldl_concat ..

private theorem messages_concat (c : String) (ps : List Projection) (p : Projection) :
    messages c (ps ++ [p]) = messages c ps ++ [Text.bytes (chain c ps) ++ canonical p] := by
  have key : ∀ prevHash, messagesFrom prevHash (ps ++ [p]) =
      messagesFrom prevHash ps ++ [Text.bytes (ps.foldl hash prevHash) ++ canonical p] := by
    induction ps with
    | nil => exact fun _ => rfl
    | cons q ps ih => exact fun prevHash => congrArg _ (ih _)
  rw [messages, key]
  rfl

private theorem exists_digest_chain (c : String) (ps : List Projection) :
    ∃ x, chain c ps = digest x := by
  rcases eq_nil_or_concat' ps with rfl | ⟨qs, q, rfl⟩
  · exact ⟨_, rfl⟩
  · exact ⟨_, by rw [chain_concat]; rfl⟩

/-- The function tells the elements of two lists apart. -/
def Separates {α β : Type} (f : α → β) (xs ys : List α) : Prop :=
  ∀ x ∈ xs, ∀ y ∈ ys, f x = f y → x = y

instance {α β : Type} [DecidableEq α] [DecidableEq β] (f : α → β) (xs ys : List α) :
    Decidable (Separates f xs ys) :=
  inferInstanceAs (Decidable (∀ x ∈ xs, ∀ y ∈ ys, f x = f y → x = y))

/-- The canonical JSON values of a list of projections. -/
def values (ps : List Projection) : List Json := ps.map fun p => .obj p.fields

/-- **The last hash determines the chain.** Two chains of projections, each from the genesis of
its collection, such that SHA-256 does not collide on the messages hashed in them and the
canonical encoding does not confuse the values encoded in them. If they end in the same hash,
they belong to the same collection, have the same length and agree position by position on
everything that is signed. -/
theorem chain_determines {c c' : String} {ps ps' : List Projection}
    (hsha : Separates Sha256.sum256 (messages c ps) (messages c' ps'))
    (hjson : Separates canonicalize (values ps) (values ps'))
    (h : chain c ps = chain c' ps') : c = c' ∧ List.Forall₂ Agrees ps ps' := by
  induction ps using List.reverseRecOn generalizing ps' with
  | nil =>
    rcases eq_nil_or_concat' ps' with rfl | ⟨qs, q, rfl⟩
    · have hmsg := hsha _ mem_cons_self _ mem_cons_self (sum256_eq_of_digest h)
      rw [Text.bytes_append, Text.bytes_append] at hmsg
      exact ⟨Text.bytes_injective (append_cancel_left hmsg), .nil⟩
    · rw [messages_concat] at hsha
      rw [chain_concat] at h
      have hmsg := hsha _ mem_cons_self _ (mem_append_right _ mem_cons_self)
        (sum256_eq_of_digest h)
      obtain ⟨x, hx⟩ := exists_digest_chain c' qs
      rw [hx] at hmsg
      exact absurd hmsg (genesis_ne_link c x _)
  | append_singleton ps p ih =>
    rcases eq_nil_or_concat' ps' with rfl | ⟨qs, q, rfl⟩
    · rw [messages_concat] at hsha
      rw [chain_concat] at h
      have hmsg := hsha _ (mem_append_right _ mem_cons_self) _ mem_cons_self
        (sum256_eq_of_digest h)
      obtain ⟨x, hx⟩ := exists_digest_chain c ps
      rw [hx] at hmsg
      exact absurd hmsg.symm (genesis_ne_link c' x _)
    · rw [messages_concat, messages_concat] at hsha
      rw [chain_concat, chain_concat] at h
      have hmsg := hsha _ (mem_append_right _ mem_cons_self) _
        (mem_append_right _ mem_cons_self) (sum256_eq_of_digest h)
      -- the message splits after the hash, which has the same length in both chains
      obtain ⟨x, hx⟩ := exists_digest_chain c ps
      obtain ⟨y, hy⟩ := exists_digest_chain c' qs
      obtain ⟨hprev, hcanon⟩ := append_inj hmsg (by rw [hx, hy, length_digest, length_digest])
      simp only [values, map_append] at hjson
      have hfields := hjson _ (mem_append_right _ mem_cons_self) _
        (mem_append_right _ mem_cons_self) hcanon
      obtain ⟨hc, hps⟩ := ih
        (fun m hm n hn => hsha m (mem_append_left _ hm) n (mem_append_left _ hn))
        (fun v hv w hw => hjson v (mem_append_left _ hv) w (mem_append_left _ hw))
        (Text.bytes_injective hprev)
      exact ⟨hc, rel_append hps (.cons (agrees_of_fields (Json.obj.inj hfields)) .nil)⟩

/-- Two chains whose events differ only in a value that is not signed. -/
theorem chain_determines_signed :
    let p : Json → Projection := fun old =>
      ⟨.create, "42", "", "", .zero, [⟨"a", .add, old, .bool true⟩], none⟩
    chain "deals" [p .null] = chain "deals" [p (.str "x")] ∧
      List.Forall₂ Agrees [p .null] [p (.str "x")] := by
  intro p
  have hfields : (p .null).fields = (p (.str "x")).fields := by decide +kernel
  have h : chain "deals" [p .null] = chain "deals" [p (.str "x")] :=
    congrArg (fun kvs => digest (Text.bytes (genesis "deals") ++ canonicalize (.obj kvs))) hfields
  exact ⟨h, (chain_determines (by decide +kernel) (by decide +kernel) h).2⟩

end HashChain

end Letopis
