import Appchain.Proofs.WireTransactions

/-!
# Serialised types

Every type that is stored or sent loses nothing in its encodings: valid values are
decoded as they were encoded, and whatever is decoded is valid, so it can be encoded
again, in the same or in the other encoding, without a change.
-/

namespace Appchain

open Outcome

variable {α : Type}

/-- The value is decoded from every one of its texts. -/
structure Json.Shape.Returns (s : Shape α) (a : α) : Prop where
  decode_encode : s.decode (s.encode a) = .ok a
  decode_pretty : s.decode ((s.write a).pretty 0) = .ok a

/-- Nothing is lost of a valid value, nor of one that has been decoded. -/
structure Json.Shape.Lossless (s : Shape α) (P : α → Prop) : Prop where
  of_valid : ∀ a, P a → s.Returns a
  of_decode : ∀ text a, s.decode text = .ok a → s.Returns a

/-- The value is decoded from each of its encodings. -/
structure Wire.Returns (w : Wire α) (a : α) : Prop where
  decode_encode : ∀ format, w.decode format (w.encode format a) = .ok a
  decode_pretty : w.json.decode ((w.json.write a).pretty 0) = .ok a

/-- Nothing is lost of a valid value, nor of one that has been decoded from either encoding. -/
structure Wire.Lossless (w : Wire α) (P : α → Prop) : Prop where
  of_valid : ∀ a, P a → w.Returns a
  of_decode : ∀ format b a, w.decode format b = .ok a → w.Returns a

/-- The value is read from its tagged bytes, and taken out of its envelope, which is itself decoded
as it was encoded. -/
structure TypeRegistry.Returns [Tagged α] (r : TypeRegistry) (a : α) : Prop where
  bytes : ∃ b, r.toBytes a = .ok b ∧ r.ofBytes b = .ok a
  envelope : ∃ e, r.toEnvelope a = .ok e ∧ r.ofEnvelope e = .ok a ∧ Envelope.shape.Returns e

/-- Nothing is lost of a valid value, nor of one that has been read or taken out. -/
structure TypeRegistry.Lossless [Tagged α] (r : TypeRegistry) (P : α → Prop) : Prop where
  of_valid : ∀ a, P a → r.Returns a
  of_ofBytes : ∀ b (a : α), r.ofBytes b = .ok a → r.Returns a
  of_ofEnvelope : ∀ e (a : α), r.ofEnvelope e = .ok a → r.Returns a

theorem Json.Shape.RoundTrips.returns {s : Shape α} {a : α} (h : s.RoundTrips a) : s.Returns a :=
  ⟨h.readsBack.decode_encode h.isData, h.readsBack.decode_pretty h.isData⟩

theorem Json.Shape.lossless {s : Shape α} {P : α → Prop} (h : ∀ a, P a → s.RoundTrips a)
    (hd : ∀ text a, s.decode text = .ok a → P a) : s.Lossless P :=
  ⟨fun a ha => (h a ha).returns, fun text a ha => (h a (hd text a ha)).returns⟩

theorem Wire.Portable.returns {w : Wire α} {n : Nat} {a : α} (h : w.Portable n a) : w.Returns a where
  decode_encode format := by
    cases format with
    | json => exact h.json.toRoundTrips.returns.decode_encode
    | binary => exact h.binary.decode_write
  decode_pretty := h.json.toRoundTrips.returns.decode_pretty

theorem Wire.lossless {w : Wire α} {P : α → Prop} {n : Nat} (h : ∀ a, P a → w.Portable n a)
    (hd : w.Yields P) : w.Lossless P :=
  ⟨fun a ha => (h a ha).returns, fun _ _ a ha => (h a (hd.decode ha)).returns⟩

theorem TypeRegistry.lossless [Tagged α] {r : TypeRegistry} {P : α → Prop}
    (hr : ∀ a : α, r.isRegistered (Tagged.interface α) (Tagged.tag a) = true)
    (h : ∀ a : α, P a → Tagged.Recovers a)
    (hd : ∀ tag (reader : Reader α), Tagged.reader? tag = some reader → reader.Yields P) :
    r.Lossless P := by
  have returns : ∀ a : α, P a → r.Returns a := fun a ha =>
    ⟨⟨_, toBytes_eq (hr a), ofBytes_write (hr a) (h a ha)⟩, _, toEnvelope_eq (hr a),
      ofEnvelope_envelopeOf (hr a) (h a ha), (h a ha).portable_envelopeOf.toRoundTrips.returns⟩
  exact ⟨returns, fun b a hb => returns a (of_ofBytes hd hb),
    fun e a he => returns a (of_ofEnvelope hd he)⟩

/-- The types that are encoded in both ways, and lists of them. -/
inductive WireType where
  | word | address | coin | coins | baseAccount | namedAccount | bond | packet | packetQueue
  | chainSequence | genesisAccount | miningState | trendState | channelState | stakingState
  | authParameters | fee | signature | send | transfer | receive | bondStake | unbond | mine
  | setTrend | quiz
  | list (k : WireType)

namespace WireType

def Value : WireType → Type
  | word => UInt64
  | address => Address
  | coin => Coin
  | coins => Coins
  | baseAccount => BaseAccount
  | namedAccount => NamedAccount
  | bond => Bond
  | packet => Packet
  | packetQueue => PacketQueue
  | chainSequence => ChainSequence
  | genesisAccount => GenesisAccount
  | miningState => Mining.State
  | trendState => TrendState
  | channelState => ChannelState
  | stakingState => StakingState
  | authParameters => AuthParameters
  | fee => Fee
  | signature => Signature
  | send => Send
  | transfer => Transfer
  | receive => Receive
  | bondStake => BondStake
  | unbond => Unbond
  | mine => Mine
  | setTrend => SetTrend
  | quiz => Quiz
  | list k => List k.Value

def wire : (k : WireType) → Wire k.Value
  | word => .word
  | address => Address.wire
  | coin => Coin.wire
  | coins => Coins.wire
  | baseAccount => BaseAccount.wire
  | namedAccount => NamedAccount.wire
  | bond => Bond.wire
  | packet => Packet.wire
  | packetQueue => PacketQueue.wire
  | chainSequence => ChainSequence.wire
  | genesisAccount => GenesisAccount.wire
  | miningState => Mining.State.wire
  | trendState => TrendState.wire
  | channelState => ChannelState.wire
  | stakingState => StakingState.wire
  | authParameters => AuthParameters.wire
  | fee => Fee.wire
  | signature => Signature.wire
  | send => Send.wire
  | transfer => Transfer.wire
  | receive => Receive.wire
  | bondStake => BondStake.wire
  | unbond => Unbond.wire
  | mine => Mine.wire
  | setTrend => SetTrend.wire
  | quiz => Quiz.wire
  | list k => k.wire.list

/-- The coin sets in a value have denominations that may be listed. -/
def Valid : (k : WireType) → k.Value → Prop
  | coins => fun c : Coins => c.Valid
  | baseAccount => fun a : BaseAccount => a.coins.Valid
  | namedAccount => fun a : NamedAccount => a.base.coins.Valid
  | packet => fun p : Packet => p.coins.Valid
  | packetQueue => fun q : PacketQueue => ∀ p ∈ q.packets, p.coins.Valid
  | genesisAccount => fun a : GenesisAccount => a.coins.Valid
  | channelState => fun s : ChannelState => ∀ q ∈ s.queues, ∀ p ∈ q.packets, p.coins.Valid
  | fee => fun f : Fee => f.amount.Valid
  | send => fun m : Send => m.amount.Valid
  | transfer => fun m : Transfer => m.packet.coins.Valid
  | receive => fun m : Receive => m.packet.coins.Valid
  | list k => fun as : List k.Value => ∀ a ∈ as, k.Valid a
  | _ => fun _ => True

theorem exists_portable (k : WireType) : ∃ n, ∀ a, k.Valid a → k.wire.Portable n a := by
  induction k with
  | word => exact ⟨0, fun a _ => Wire.portable_word 0 a⟩
  | address => exact ⟨0, fun a _ => Address.portable 0 a⟩
  | coin => exact ⟨1, fun a _ => Coin.portable 0 a⟩
  | coins => exact ⟨2, fun _ h => Coins.portable 0 h⟩
  | baseAccount => exact ⟨3, fun _ h => BaseAccount.portable 0 h⟩
  | namedAccount => exact ⟨4, fun _ h => NamedAccount.portable 0 h⟩
  | bond => exact ⟨1, fun a _ => Bond.portable 0 a⟩
  | packet => exact ⟨3, fun _ h => Packet.portable 0 h⟩
  | packetQueue => exact ⟨5, fun _ h => PacketQueue.portable 0 h⟩
  | chainSequence => exact ⟨1, fun a _ => ChainSequence.portable 0 a⟩
  | genesisAccount => exact ⟨3, fun _ h => GenesisAccount.portable 0 h⟩
  | miningState => exact ⟨1, fun a _ => Mining.State.portable 0 a⟩
  | trendState => exact ⟨1, fun a _ => TrendState.portable 0 a⟩
  | channelState => exact ⟨7, fun _ h => ChannelState.portable 0 h⟩
  | stakingState => exact ⟨3, fun a _ => StakingState.portable 0 a⟩
  | authParameters => exact ⟨1, fun a _ => (AuthParameters.portable_fields 0 a).wire⟩
  | fee => exact ⟨3, fun _ h => Fee.portable 0 h⟩
  | signature => exact ⟨1, fun a _ => Signature.portable 0 a⟩
  | send => exact ⟨3, fun _ h => Send.portable 0 h⟩
  | transfer => exact ⟨4, fun _ h => Transfer.portable 0 h⟩
  | receive => exact ⟨4, fun _ h => Receive.portable 0 h⟩
  | bondStake => exact ⟨2, fun a _ => BondStake.portable 0 a⟩
  | unbond => exact ⟨1, fun a _ => Unbond.portable 0 a⟩
  | mine => exact ⟨1, fun a _ => Mine.portable 0 a⟩
  | setTrend => exact ⟨1, fun a _ => SetTrend.portable 0 a⟩
  | quiz => exact ⟨1, fun a _ => Quiz.portable 0 a⟩
  | list k ih =>
    obtain ⟨n, hn⟩ := ih
    exact ⟨n + 1, fun _ h => .list fun a ha => hn a (h a ha)⟩

theorem yields_valid (k : WireType) : k.wire.Yields k.Valid := by
  induction k with
  | coins => exact Coins.yields_valid
  | baseAccount => exact BaseAccount.yields_valid
  | namedAccount => exact NamedAccount.yields_valid
  | packet => exact Packet.yields_valid
  | packetQueue => exact PacketQueue.yields_valid
  | genesisAccount => exact GenesisAccount.yields_valid
  | channelState => exact ChannelState.yields_valid
  | fee => exact Fee.yields_valid
  | send => exact Send.yields_valid
  | transfer => exact Transfer.yields_valid
  | receive => exact Receive.yields_valid
  | list k ih => exact ih.list
  | _ => exact Wire.yields_true _

end WireType

/-- Nothing that is stored or sent is lost: not of the types that are encoded in both ways, not of
the sections and documents that are written as JSON alone, and not of accounts and messages with
their tags. -/
theorem serialised_types_lossless :
    (∀ k : WireType, k.wire.Lossless k.Valid) ∧
    (∀ depth, (AuthState.shape depth).Lossless fun s => s.collectedFees.Valid) ∧
    Genesis.shape.Lossless Genesis.Valid ∧
    TypeRegistry.standard.Lossless (fun a : Account => a.coins.Valid) ∧
    TypeRegistry.standard.Lossless Message.Valid := by
  refine ⟨fun k => ?_, fun depth => ?_, ?_, ?_, ?_⟩
  · obtain ⟨n, hn⟩ := k.exists_portable
    exact Wire.lossless hn k.yields_valid
  · exact Json.Shape.lossless (fun s hs => AuthState.roundTrips hs depth)
      fun text s hs => (AuthState.yields_valid depth).decode hs
  · refine Json.Shape.lossless (fun g hg => Genesis.roundTrips hg) fun text g hg => ?_
    exact Genesis.valid_of_decode (mapError_eq_ok.mpr hg)
  · exact TypeRegistry.lossless TypeRegistry.isRegistered_account (fun a ha => Account.recovers ha)
      Account.yields_valid
  · exact TypeRegistry.lossless TypeRegistry.isRegistered_message (fun m hm => Message.recovers hm)
      Message.yields_valid

/-- A stored account comes back, and so does a list of queues in both encodings. -/
theorem serialised_types_lossless_account :
    let coins := Coins.single "pow" 5
    let a : Account := .named ⟨"für", ⟨.zero, coins, some "07", 0, Word.maximum⟩⟩
    let qs : List PacketQueue := [⟨"iris", [⟨.zero, .zero, coins, "xpx", "iris"⟩]⟩, ⟨"", []⟩]
    (∃ b, TypeRegistry.standard.toBytes a = .ok b ∧ TypeRegistry.standard.ofBytes b = .ok a) ∧
      PacketQueue.wire.list.Returns qs := by
  intro coins a qs
  have hcoins : coins.Valid := Coins.valid_single (by decide) 5
  obtain ⟨hwire, -, -, haccount, -⟩ := serialised_types_lossless
  refine ⟨(haccount.of_valid a hcoins).bytes, (hwire (.list .packetQueue)).of_valid qs ?_⟩
  refine List.forall_mem_cons.mpr ⟨fun p hp => ?_, List.forall_mem_cons.mpr ⟨nofun, nofun⟩⟩
  rw [List.mem_singleton.mp hp]
  exact hcoins

end Appchain
