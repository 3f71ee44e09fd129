import Appchain.Proofs.DecodedCoins
import Appchain.Proofs.Documents

/-!
# Transactions on the wire

Every message reads back from both of its encodings. A transaction is sent as an
envelope with an envelope for every message, all with sorted members. What is sent is
decoded as the transaction that it was, so what has been decoded can be sent on, and
is sent as the same bytes from then on.
-/

namespace Appchain

open Json Outcome
open Shape (portable_text portable_any)

theorem Send.portable (n : Nat) {m : Send} (h : m.amount.Valid) : Send.wire.Portable (n + 3) m :=
  ((((Address.portable _ _).field _ _).append ((Address.portable _ _).field _ _)
    (by decide)).append ((Coins.portable n h).field _ _) (by decide)).record rfl

theorem Transfer.portable (n : Nat) {m : Transfer} (h : m.packet.coins.Valid) :
    Transfer.wire.Portable (n + 4) m :=
  ((Packet.portable n h).field _ _).record rfl

theorem Receive.portable (n : Nat) {m : Receive} (h : m.packet.coins.Valid) :
    Receive.wire.Portable (n + 4) m :=
  ((((Packet.portable n h).field _ _).append ((Address.portable _ _).field _ _)
    (by decide)).append ((Wire.portable_word _ _).field _ _) (by decide)).record rfl

theorem BondStake.portable (n : Nat) (m : BondStake) : BondStake.wire.Portable (n + 2) m :=
  ((((Address.portable _ _).field _ _).append ((Coin.portable n _).field _ _)
    (by decide)).append ((Wire.portable_text _ _).field _ _) (by decide)).record rfl

theorem Unbond.portable (n : Nat) (m : Unbond) : Unbond.wire.Portable (n + 1) m :=
  ((Address.portable n _).field _ _).record rfl

theorem Mine.portable (n : Nat) (m : Mine) : Mine.wire.Portable (n + 1) m :=
  (((((Address.portable n _).field _ _).append ((Wire.portable_word _ _).field _ _)
    (by decide)).append ((Wire.portable_word _ _).field _ _) (by decide)).append
    ((Wire.portable_word _ _).field _ _) (by decide)).append
    ((Wire.portable_text _ _).field _ _) (by decide) |>.record rfl

theorem SetTrend.portable (n : Nat) (m : SetTrend) : SetTrend.wire.Portable (n + 1) m :=
  (((Address.portable n _).field _ _).append ((Wire.portable_text _ _).field _ _)
    (by decide)).record rfl

theorem Quiz.portable (n : Nat) (m : Quiz) : Quiz.wire.Portable (n + 1) m :=
  (((Address.portable n _).field _ _).append ((Wire.portable_text _ _).field _ _)
    (by decide)).record rfl

theorem Message.recovers {m : Message} (h : m.Valid) : Tagged.Recovers m := by
  cases m with
  | send m => exact .of_wire rfl rfl (Send.portable 1 h)
  | transfer m => exact .of_wire rfl rfl (Transfer.portable 0 h)
  | receive m => exact .of_wire rfl rfl (Receive.portable 0 h)
  | bond m => exact .of_wire rfl rfl (BondStake.portable 2 m)
  | unbond m => exact .of_wire rfl rfl (Unbond.portable 3 m)
  | mine m => exact .of_wire rfl rfl (Mine.portable 3 m)
  | setTrend m => exact .of_wire rfl rfl (SetTrend.portable 3 m)
  | quiz m => exact .of_wire rfl rfl (Quiz.portable 3 m)

theorem Fee.portable (n : Nat) {f : Fee} (h : f.amount.Valid) : Fee.wire.Portable (n + 3) f :=
  (((Coins.portable n h).field _ _).append ((Wire.portable_word _ _).field _ _)
    (by decide)).record rfl

theorem Signature.portable (n : Nat) (s : Signature) : Signature.wire.Portable (n + 1) s :=
  ((((Wire.portable_text n _).field _ _).append ((Wire.portable_text _ _).field _ _)
    (by decide)).append ((Wire.portable_word _ _).field _ _) (by decide)).append
    ((Wire.portable_word _ _).field _ _) (by decide) |>.record rfl

theorem Envelope.portable {tag : String} {v : Json} {n : Nat} (hd : v.isData = true)
    (hn : v.nesting ≤ n) (hm : 1 + n ≤ maximumDepth) :
    Envelope.shape.Portable (n + 1) ⟨tag, v.sorted⟩ :=
  ((((portable_text _ _).field _ _).append ((portable_any hd hn hm).field _ _) (by decide)).iso
    rfl).shape

theorem Tagged.Recovers.portable_envelopeOf {α : Type} [Tagged α] {a : α} (h : Tagged.Recovers a) :
    Envelope.shape.Portable (Tagged.maximumNesting + 1) (TypeRegistry.envelopeOf a) :=
  Envelope.portable h.isData h.nesting_le (by decide)

/-- A transaction has its messages inside a list, and its fee and its signatures beside it. -/
theorem TransactionOf.portable {n : Nat} {t : TransactionOf Envelope}
    (hm : ∀ e ∈ t.messages, Envelope.shape.Portable (n + 2) e) (hf : t.fee.amount.Valid) :
    (TransactionOf.shape Envelope.shape).Portable (n + 4) t :=
  (((((Shape.Portable.list hm).field _ _).append ((Fee.portable n hf).json.field _ _)
    (by decide)).append
    ((Shape.Portable.list fun x _ => (Signature.portable (n + 1) x).json).field _ _)
    (by decide)).append ((portable_text _ _).field _ _) (by decide)).iso rfl |>.shape

namespace Transaction

variable {t : Transaction}

/-- The transaction with its messages in their envelopes. -/
def packed (t : Transaction) : TransactionOf Envelope :=
  t.withMessages (t.messages.map TypeRegistry.envelopeOf)

theorem pack_eq (t : Transaction) : pack .standard t = .ok t.packed := by
  have h : t.messages.mapM TypeRegistry.standard.toEnvelope =
      .ok (t.messages.map TypeRegistry.envelopeOf) :=
    mapM_eq_ok_map fun m _ => TypeRegistry.toEnvelope_eq (TypeRegistry.isRegistered_message m)
  unfold pack
  rw [h]
  rfl

theorem unpack_packed (h : t.Valid) : unpack .standard t.packed = .ok t := by
  have hm : (t.messages.map TypeRegistry.envelopeOf).mapM TypeRegistry.standard.ofEnvelope =
      .ok t.messages := by
    rw [List.mapM_map, mapM_eq_ok_map (g := id), List.map_id]
    intro m hm
    exact TypeRegistry.ofEnvelope_envelopeOf (TypeRegistry.isRegistered_message m)
      (Message.recovers (h.messages m hm))
  unfold unpack packed TransactionOf.withMessages
  rw [hm]
  rfl

theorem portable_packed (h : t.Valid) :
    (TransactionOf.shape Envelope.shape).Portable (Tagged.maximumNesting + 3) t.packed := by
  refine TransactionOf.portable (n := Tagged.maximumNesting - 1) ?_ h.fee
  intro e he
  obtain ⟨m, hm, rfl⟩ := List.mem_map.mp he
  exact (Message.recovers (h.messages m hm)).portable_envelopeOf

theorem ensure_tag : TypeRegistry.standard.ensure interface tag = .ok () :=
  if_pos (TypeRegistry.isRegistered_standard (_, _) (by decide))

/-- The transaction as it is sent. -/
def wireText (t : Transaction) : Bytes :=
  Envelope.shape.encode ⟨tag, ((TransactionOf.shape Envelope.shape).write t.packed).sorted⟩

theorem encode_eq (t : Transaction) : t.encode .standard = .ok t.wireText := by
  simp only [encode, pack_eq, ensure_tag, bind, Except.bind]
  rfl

theorem decode_wireText (h : t.Valid) : decode .standard t.wireText = .ok t := by
  have hp := portable_packed h
  have he : Envelope.shape.Portable (Tagged.maximumNesting + 4)
      ⟨tag, ((TransactionOf.shape Envelope.shape).write t.packed).sorted⟩ :=
    Envelope.portable hp.isData hp.nesting_le (by decide)
  have hr : (TransactionOf.shape Envelope.shape).read
      ((TransactionOf.shape Envelope.shape).write t.packed).sorted.toDoc = .ok t.packed :=
    hp.sorting.read_write
  simp only [decode, wireText, he.readsBack.decode_encode he.isData, mapError_ok, ensure_tag, hr,
    bind, Except.bind, if_true]
  exact unpack_packed h

theorem decode_encoded (h : t.Valid) :
    decode .standard ((t.encode .standard).toOption.getD []) = .ok t := by
  rw [encode_eq]
  exact decode_wireText h

/-- Every transaction with valid coins is encoded, and decoded as it was. Whatever is decoded can
therefore be encoded again, which is decoded as the same transaction, and encoded as the same bytes
from then on. -/
theorem wire_round_trip :
    (∀ t : Transaction, t.Valid → ∃ b, t.encode .standard = .ok b ∧ decode .standard b = .ok t) ∧
    ∀ b t, decode .standard b = .ok t → ∃ c u, t.encode .standard = .ok c ∧
      decode .standard c = .ok u ∧ u = t ∧ u.encode .standard = .ok c := by
  have h : ∀ t : Transaction, t.Valid → decode .standard t.wireText = .ok t := fun _ => decode_wireText
  refine ⟨fun t ht => ⟨_, encode_eq t, h t ht⟩, fun b t hd => ?_⟩
  exact ⟨_, t, encode_eq t, h t (valid_of_decode hd), rfl, encode_eq t⟩

/-- A transaction with a message of every kind. -/
def assorted : Transaction :=
  let a := Address.ofPublicKey [7]
  let packet : Packet := ⟨a, .zero, .single "pow" 1, "xpx", "iris"⟩
  { messages := [.send ⟨a, .zero, .single "pow" Word.maximum⟩, .transfer ⟨packet⟩,
      .receive ⟨packet, a, 3⟩, .bond ⟨a, ⟨"steak", 2⟩, "08"⟩, .unbond ⟨a⟩, .mine ⟨a, 1, 0, 5, "00"⟩,
      .setTrend ⟨a, "für \"alle\""⟩, .quiz ⟨a, "ice\ncold"⟩]
    fee := ⟨.single "pow" 2, 0⟩
    signatures := [⟨"07", "aa", 0, Word.maximum⟩]
    memo := "→ \t" }

theorem valid_assorted : assorted.Valid where
  fee := Coins.valid_single (by decide) 2
  messages := by
    have hpow : ∀ n, (Coins.single "pow" n).Valid := Coins.valid_single (by decide)
    simp only [assorted, List.forall_mem_cons, Message.Valid]
    exact ⟨hpow _, hpow _, hpow _, trivial, trivial, trivial, trivial, trivial, nofun⟩

/-- A message of every kind goes out and comes back, twice. -/
theorem wire_round_trip_assorted : ∃ b c, assorted.encode .standard = .ok b ∧
    decode .standard b = .ok assorted ∧ assorted.encode .standard = .ok c ∧
    decode .standard c = .ok assorted := by
  obtain ⟨b, hb, hd⟩ := wire_round_trip.1 assorted valid_assorted
  obtain ⟨c, u, hc, hu, rfl, -⟩ := wire_round_trip.2 b assorted hd
  exact ⟨b, c, hb, hd, hc, hu⟩

end Transaction
end Appchain
