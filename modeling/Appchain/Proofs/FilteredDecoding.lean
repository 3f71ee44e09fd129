import Appchain.Proofs.Registries
import Appchain.Proofs.WrittenValues

/-!
# Decoding under a registry

A registry lets through what the registry of the application lets through, as far as
the tags are registered: a tag that is not registered is refused before its value is
looked at. Writing needs the same tags as reading, so no registry calls a type
unknown that it has written itself. Whether a value reads back is another matter; the
coins that are written need not be coins that may be listed.
-/

namespace Appchain

open Outcome

/-- Tagged types with a reader for the tag of every value, each reader for the values with its tag
alone. -/
class Tagged.Faithful (α : Type) [Tagged α] : Prop where
  exists_reader : ∀ a : α, ∃ reader : Reader α, Tagged.reader? (Tagged.tag a) = some reader
  yields_tag : ∀ (tag : String) (reader : Reader α), Tagged.reader? tag = some reader →
    reader.Yields fun a => Tagged.tag a = tag

instance : Tagged.Faithful Account where
  exists_reader a := by cases a <;> exact ⟨_, rfl⟩
  yields_tag tag reader h := by
    change Account.reader? tag = some reader at h
    unfold Account.reader? at h
    split at h <;> cases h
    all_goals exact (Wire.yields_true _).reader fun _ _ => rfl

instance : Tagged.Faithful Message where
  exists_reader m := by cases m <;> exact ⟨_, rfl⟩
  yields_tag tag reader h := by
    change Message.reader? tag = some reader at h
    unfold Message.reader? at h
    split at h <;> cases h
    all_goals exact (Wire.yields_true _).reader fun _ _ => rfl

/-- An answer that does not call a type unknown. -/
def Recognised {α : Type} (x : Except CodecError α) : Prop :=
  ∀ interface tag, x ≠ .error (.unknownType interface tag)

namespace Recognised

variable {α β : Type}

theorem ok (a : α) : Recognised (.ok a) := nofun

theorem mapError_decode (x : Except Fault α) : Recognised (x.mapError .decode) := by
  cases x with
  | ok a => exact ok a
  | error f => exact nofun

theorem bind {x : Except CodecError α} {f : α → Except CodecError β} (hx : Recognised x)
    (hf : ∀ a, x = .ok a → Recognised (f a)) : Recognised (x >>= f) := by
  intro interface tag h
  rcases bind_eq_error.mp h with h | ⟨a, ha, h⟩
  · exact hx interface tag h
  · exact hf a ha interface tag h

theorem mapM {f : α → Except CodecError β} {as : List α} (h : ∀ a ∈ as, Recognised (f a)) :
    Recognised (as.mapM f) := by
  intro interface tag he
  obtain ⟨a, ha, he⟩ := mapM_eq_error he
  exact h a ha interface tag he

end Recognised

namespace TypeRegistry

variable {α : Type} [Tagged α] {r full : TypeRegistry} {a : α} {e : Envelope} {tag : String}
  {b payload : Bytes}

theorem ofEnvelope_unregistered (h : r.isRegistered (Tagged.interface α) e.tag = false) :
    (r.ofEnvelope e : Except CodecError α) = .error (.unknownType (Tagged.interface α) e.tag) := by
  simp only [ofEnvelope, TypeRegistry.reader, ensure_eq_error h, bind, Except.bind]

theorem ofBytes_unregistered (hb : taggedBytes.decode b = .ok (tag, payload))
    (h : r.isRegistered (Tagged.interface α) tag = false) :
    (r.ofBytes b : Except CodecError α) = .error (.unknownType (Tagged.interface α) tag) := by
  simp only [ofBytes, hb, mapError_ok, TypeRegistry.reader, ensure_eq_error h, bind, Except.bind]

/-- Reading and writing under the registry `r`, if `full` is a registry with all tags of the type. -/
structure Filters (r full : TypeRegistry) (α : Type) [Tagged α] : Prop where
  /-- A value is taken out of an envelope under `r` if it is under `full`, and its tag is
  registered. -/
  ofEnvelope_iff : ∀ e (a : α), r.ofEnvelope e = .ok a ↔
    full.ofEnvelope e = .ok a ∧ r.isRegistered (Tagged.interface α) (Tagged.tag a) = true
  ofBytes_iff : ∀ b (a : α), r.ofBytes b = .ok a ↔
    full.ofBytes b = .ok a ∧ r.isRegistered (Tagged.interface α) (Tagged.tag a) = true
  /-- A tag that is not registered is refused, whatever the value is. -/
  ofEnvelope_unknown : ∀ e, r.isRegistered (Tagged.interface α) e.tag = false →
    (r.ofEnvelope e : Except CodecError α) = .error (.unknownType (Tagged.interface α) e.tag)
  ofBytes_unknown : ∀ b tag payload, taggedBytes.decode b = .ok (tag, payload) →
    r.isRegistered (Tagged.interface α) tag = false →
      (r.ofBytes b : Except CodecError α) = .error (.unknownType (Tagged.interface α) tag)
  /-- A value has the tag under which it has been sent. -/
  tag_ofEnvelope : ∀ e (a : α), r.ofEnvelope e = .ok a → Tagged.tag a = e.tag
  tag_ofBytes : ∀ b (a : α), r.ofBytes b = .ok a →
    ∃ payload, taggedBytes.decode b = .ok (Tagged.tag a, payload)
  /-- A value is written if its tag is registered. -/
  toEnvelope_iff : ∀ a : α, (∃ e, r.toEnvelope a = .ok e) ↔
    r.isRegistered (Tagged.interface α) (Tagged.tag a) = true
  toBytes_iff : ∀ a : α, (∃ b, r.toBytes a = .ok b) ↔
    r.isRegistered (Tagged.interface α) (Tagged.tag a) = true
  /-- What has been written is not unknown. -/
  recognised_envelope : ∀ (a : α) e, r.toEnvelope a = .ok e →
    Recognised (r.ofEnvelope e : Except CodecError α)
  recognised_bytes : ∀ (a : α) b, r.toBytes a = .ok b →
    Recognised (r.ofBytes b : Except CodecError α)

section Faithful

variable [Tagged.Faithful α]

theorem tag_of_ofEnvelope (h : r.ofEnvelope e = .ok a) : Tagged.tag a = e.tag := by
  obtain ⟨-, reader, hr, ha⟩ := ofEnvelope_eq_ok.mp h
  exact (Tagged.Faithful.yields_tag _ reader hr).ofDoc _ a ha

theorem tag_of_ofBytes (h : r.ofBytes b = .ok a) :
    ∃ payload, taggedBytes.decode b = .ok (Tagged.tag a, payload) := by
  obtain ⟨tag, payload, hb, -, reader, hr, ha⟩ := ofBytes_eq_ok.mp h
  have htag := (Tagged.Faithful.yields_tag tag reader hr).ofBytes payload a ha
  exact ⟨payload, htag ▸ hb⟩

/-- The reader for the tag of a value is known wherever the tag is registered. -/
theorem exists_reader (h : r.isRegistered (Tagged.interface α) (Tagged.tag a) = true) :
    ∃ reader : Reader α, r.reader (Tagged.tag a) = .ok reader := by
  obtain ⟨reader, hr⟩ := Tagged.Faithful.exists_reader a
  exact ⟨reader, reader_eq_ok.mpr ⟨h, hr⟩⟩

theorem recognised_ofEnvelope (h : r.isRegistered (Tagged.interface α) (Tagged.tag a) = true) :
    Recognised (r.ofEnvelope (envelopeOf a) : Except CodecError α) := by
  obtain ⟨reader, hr⟩ := exists_reader h
  unfold ofEnvelope envelopeOf
  exact .bind (hr ▸ .ok reader) fun reader _ => .mapError_decode _

theorem recognised_ofBytes (h : r.isRegistered (Tagged.interface α) (Tagged.tag a) = true) :
    Recognised (r.ofBytes (taggedBytes.write (Tagged.tag a, (Tagged.body a).bytes)) :
      Except CodecError α) := by
  have hd := taggedBytes_decode_write (Tagged.tag a) (Tagged.body a).bytes
  obtain ⟨reader, hr⟩ := exists_reader h
  refine .bind (.mapError_decode _) fun p hp => ?_
  cases hd.symm.trans (mapError_eq_ok.mp hp)
  exact .bind (hr ▸ .ok reader) fun reader _ => .mapError_decode _

theorem ofEnvelope_filtered (hf : ∀ a : α, full.isRegistered (Tagged.interface α) (Tagged.tag a) = true) :
    r.ofEnvelope e = .ok a ↔
      full.ofEnvelope e = .ok a ∧ r.isRegistered (Tagged.interface α) (Tagged.tag a) = true := by
  constructor
  · intro h
    have htag := tag_of_ofEnvelope h
    obtain ⟨hr, hread⟩ := ofEnvelope_eq_ok.mp h
    exact ⟨ofEnvelope_eq_ok.mpr ⟨htag ▸ hf a, hread⟩, htag ▸ hr⟩
  · rintro ⟨h, hr⟩
    have htag := tag_of_ofEnvelope h
    exact ofEnvelope_eq_ok.mpr ⟨htag ▸ hr, (ofEnvelope_eq_ok.mp h).2⟩

theorem ofBytes_filtered (hf : ∀ a : α, full.isRegistered (Tagged.interface α) (Tagged.tag a) = true) :
    r.ofBytes b = .ok a ↔
      full.ofBytes b = .ok a ∧ r.isRegistered (Tagged.interface α) (Tagged.tag a) = true := by
  constructor
  · intro h
    obtain ⟨tag, payload, hb, hr, reader, hk, ha⟩ := ofBytes_eq_ok.mp h
    have htag : Tagged.tag a = tag := (Tagged.Faithful.yields_tag tag reader hk).ofBytes payload a ha
    exact ⟨ofBytes_eq_ok.mpr ⟨tag, payload, hb, htag ▸ hf a, reader, hk, ha⟩, htag ▸ hr⟩
  · rintro ⟨h, hr⟩
    obtain ⟨tag, payload, hb, -, reader, hk, ha⟩ := ofBytes_eq_ok.mp h
    have htag : Tagged.tag a = tag := (Tagged.Faithful.yields_tag tag reader hk).ofBytes payload a ha
    exact ofBytes_eq_ok.mpr ⟨tag, payload, hb, htag ▸ hr, reader, hk, ha⟩

theorem filters (r : TypeRegistry)
    (hf : ∀ a : α, full.isRegistered (Tagged.interface α) (Tagged.tag a) = true) :
    r.Filters full α where
  ofEnvelope_iff _ _ := ofEnvelope_filtered hf
  ofBytes_iff _ _ := ofBytes_filtered hf
  ofEnvelope_unknown _ := ofEnvelope_unregistered
  ofBytes_unknown _ _ _ := ofBytes_unregistered
  tag_ofEnvelope _ _ := tag_of_ofEnvelope
  tag_ofBytes _ _ := tag_of_ofBytes
  toEnvelope_iff a := by simp only [toEnvelope_eq_ok, exists_and_left, exists_eq, and_true]
  toBytes_iff a := by simp only [toBytes_eq_ok, exists_and_left, exists_eq, and_true]
  recognised_envelope a e h := by
    obtain ⟨hr, rfl⟩ := toEnvelope_eq_ok.mp h
    exact recognised_ofEnvelope hr
  recognised_bytes a b h := by
    obtain ⟨hr, rfl⟩ := toBytes_eq_ok.mp h
    exact recognised_ofBytes hr

end Faithful
end TypeRegistry

namespace Transaction

open Json

variable {r : TypeRegistry} {t : Transaction} {b : Bytes}

/-- The tags of a transaction and of all its messages are registered. -/
structure Registered (r : TypeRegistry) (t : Transaction) : Prop where
  transaction : r.isRegistered interface tag = true
  messages : ∀ m ∈ t.messages, r.isRegistered (Tagged.interface Message) (Tagged.tag m) = true

theorem unpack_filtered {u : TransactionOf Envelope} : unpack r u = .ok t ↔
    unpack .standard u = .ok t ∧
      ∀ m ∈ t.messages, r.isRegistered (Tagged.interface Message) (Tagged.tag m) = true := by
  have hm : ∀ ms, u.messages.mapM r.ofEnvelope = .ok ms ↔
      u.messages.mapM TypeRegistry.standard.ofEnvelope = .ok ms ∧
        ∀ m ∈ ms, r.isRegistered (Tagged.interface Message) (Tagged.tag m) = true := fun _ =>
    mapM_filtered fun _ _ => TypeRegistry.ofEnvelope_filtered TypeRegistry.isRegistered_message
  simp only [unpack_eq_ok, hm]
  constructor
  · rintro ⟨ms, ⟨hms, hr⟩, rfl⟩
    exact ⟨⟨ms, hms, rfl⟩, hr⟩
  · rintro ⟨⟨ms, hms, rfl⟩, hr⟩
    exact ⟨ms, ⟨hms, hr⟩, rfl⟩

/-- A transaction comes out of a text under `r` if it does under the registry of the application,
and its tags are registered. -/
theorem decode_filtered : decode r b = .ok t ↔ decode .standard b = .ok t ∧ Registered r t := by
  constructor
  · intro h
    obtain ⟨e, he, hr, htag, u, hu, ht⟩ := decode_eq_ok.mp h
    obtain ⟨ht, hm⟩ := unpack_filtered.mp ht
    have hs := TypeRegistry.ensure_eq_ok_iff.mp ensure_tag
    exact ⟨decode_eq_ok.mpr ⟨e, he, htag ▸ hs, htag, u, hu, ht⟩, htag ▸ hr, hm⟩
  · rintro ⟨h, hr⟩
    obtain ⟨e, he, -, htag, u, hu, ht⟩ := decode_eq_ok.mp h
    exact decode_eq_ok.mpr
      ⟨e, he, htag ▸ hr.transaction, htag, u, hu, unpack_filtered.mpr ⟨ht, hr.messages⟩⟩

theorem pack_eq_ok {u : TransactionOf Envelope} : pack r t = .ok u ↔
    (∀ m ∈ t.messages, r.isRegistered (Tagged.interface Message) (Tagged.tag m) = true) ∧
      u = t.packed := by
  have hm : ∀ es, t.messages.mapM r.toEnvelope = .ok es ↔
      (∀ m ∈ t.messages, r.isRegistered (Tagged.interface Message) (Tagged.tag m) = true) ∧
        es = t.messages.map TypeRegistry.envelopeOf := fun _ =>
    mapM_eq_ok_iff fun _ _ => TypeRegistry.toEnvelope_eq_ok
  simp only [pack, bind_eq_ok, pure_eq_ok, hm, and_assoc, exists_and_left, exists_eq_left]
  rfl

theorem encode_eq_ok : t.encode r = .ok b ↔ Registered r t ∧ b = t.wireText := by
  unfold encode
  simp only [bind_eq_ok, pack_eq_ok]
  constructor
  · rintro ⟨u, ⟨hm, rfl⟩, _, hr, hb⟩
    cases hb
    exact ⟨⟨TypeRegistry.ensure_eq_ok_iff.mp hr, hm⟩, rfl⟩
  · rintro ⟨hr, rfl⟩
    exact ⟨_, ⟨hr.messages, rfl⟩, (), TypeRegistry.ensure_eq_ok_iff.mpr hr.transaction, rfl⟩

/-- Also where a message could not be read back, its envelope can. -/
theorem portable_envelopes (t : Transaction) : ∀ e ∈ t.packed.messages,
    Envelope.shape.Portable (Tagged.maximumNesting + 1) e := by
  intro e he
  obtain ⟨m, -, rfl⟩ := List.mem_map.mp he
  exact Envelope.portable m.limited.isData m.limited.nesting_le (by decide)

/-- The envelope of a transaction is read as it was sent. -/
theorem decode_envelope (t : Transaction) : Envelope.shape.decode t.wireText =
    .ok ⟨tag, ((TransactionOf.shape Envelope.shape).write t.packed).sorted⟩ := by
  have hl : Json.Limited (Tagged.maximumNesting + 3)
      ((TransactionOf.shape Envelope.shape).write t.packed) :=
    TransactionOf.limited (n := Tagged.maximumNesting - 1) fun e he => (portable_envelopes t e he).limited
  have he : Envelope.shape.Portable (Tagged.maximumNesting + 4)
      ⟨tag, ((TransactionOf.shape Envelope.shape).write t.packed).sorted⟩ :=
    Envelope.portable hl.isData hl.nesting_le (by decide)
  exact he.readsBack.decode_encode he.isData

theorem recognised_wireText (h : Registered r t) : Recognised (decode r t.wireText) := by
  have hsent : t.packed.messages = t.messages.map TypeRegistry.envelopeOf := rfl
  refine .bind (.mapError_decode _) fun e he => ?_
  cases (decode_envelope t).symm.trans (mapError_eq_ok.mp he)
  have hensure : r.ensure interface tag = .ok () :=
    TypeRegistry.ensure_eq_ok_iff.mpr h.transaction
  refine .bind (hensure ▸ .ok ()) fun _ _ => ?_
  rw [if_pos rfl]
  refine .bind (.mapError_decode _) fun u hu => ?_
  have hmessages : u.messages = t.packed.messages :=
    TransactionOf.messages_of_read (Shape.Portable.list (portable_envelopes t)).sorting
      (mapError_eq_ok.mp hu)
  unfold unpack
  rw [hmessages, hsent]
  refine .bind (.mapM fun e he => ?_) fun _ _ => .ok _
  obtain ⟨m, hm, rfl⟩ := List.mem_map.mp he
  exact TypeRegistry.recognised_ofEnvelope (h.messages m hm)

end Transaction

/-- Under any registry, a text is decoded as a transaction if it is under the registry of the
application, and the tags of the transaction and of its messages are registered; accounts and
messages are read and written under the same condition on their own tags, a tag that is not
registered is refused whatever the value is, and what is read has the tag of its envelope. A
transaction is encoded if its tags are registered. What has been written is not called unknown. -/
theorem decoding_filters (r : TypeRegistry) :
    (∀ b t, Transaction.decode r b = .ok t ↔
      Transaction.decode .standard b = .ok t ∧ Transaction.Registered r t) ∧
    r.Filters .standard Account ∧ r.Filters .standard Message ∧
    (∀ t, (∃ b, Transaction.encode r t = .ok b) ↔ Transaction.Registered r t) ∧
    ∀ t b, Transaction.encode r t = .ok b → Recognised (Transaction.decode r b) := by
  refine ⟨fun b t => Transaction.decode_filtered,
    TypeRegistry.filters r TypeRegistry.isRegistered_account,
    TypeRegistry.filters r TypeRegistry.isRegistered_message, fun t => ?_, fun t b h => ?_⟩
  · simp only [Transaction.encode_eq_ok, exists_and_left, exists_eq, and_true]
  · obtain ⟨hr, rfl⟩ := Transaction.encode_eq_ok.mp h
    exact Transaction.recognised_wireText hr

/-- A registry for transactions of quizzes. -/
def TypeRegistry.quizzes : TypeRegistry := registry.run .empty [
  .register (.interface "Msg"), .register (.tag "Msg" "cool/Quiz"),
  .register (.interface "Tx"), .register (.tag "Tx" "auth/StdTx"),
  .close]

def Transaction.guess : Transaction := ⟨[.quiz ⟨.zero, "icecold"⟩], .zero, [], ""⟩

/-- A quiz goes out and comes back. A transaction of other messages does not come in. -/
theorem decoding_filters_quizzes :
    (∃ b, Transaction.guess.encode .quizzes = .ok b ∧
      Recognised (Transaction.decode .quizzes b) ∧
      Transaction.decode .quizzes b = .ok Transaction.guess) ∧
    (∀ t, Transaction.decode .quizzes Transaction.assorted.wireText ≠ .ok t) ∧
    (TypeRegistry.quizzes.ofEnvelope ⟨"cool/SetTrend", .null⟩ : Except CodecError Message) =
      .error (.unknownType "Msg" "cool/SetTrend") := by
  obtain ⟨hdecode, -, hmessage, hencode, hrecognised⟩ := decoding_filters .quizzes
  refine ⟨?_, fun t ht => ?_, hmessage.ofEnvelope_unknown _ (by decide +kernel)⟩
  · have hr : Transaction.Registered .quizzes Transaction.guess := ⟨by decide +kernel, by decide +kernel⟩
    have hv : Transaction.guess.Valid := ⟨Coins.valid_empty, by simp [Transaction.guess, Message.Valid]⟩
    obtain ⟨b, hb⟩ := (hencode Transaction.guess).mpr hr
    obtain ⟨-, rfl⟩ := Transaction.encode_eq_ok.mp hb
    exact ⟨_, hb, hrecognised _ _ hb, (hdecode _ _).mpr ⟨Transaction.decode_wireText hv, hr⟩⟩
  · obtain ⟨hs, hr⟩ := (hdecode _ t).mp ht
    cases hs.symm.trans (Transaction.decode_wireText Transaction.valid_assorted)
    have hsend := hr.messages _ (List.mem_cons_self ..)
    exact absurd hsend (by decide +kernel)

end Appchain
