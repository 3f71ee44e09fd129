import Appchain.Proofs.DecodedValues
import Appchain.Proofs.GenesisRuns

/-!
# Coins that have been decoded

Whatever is read has passed the checks of its type. A coin set that is read, from
JSON or from bytes, is valid, and so are the coins of every account, every message,
every transaction and every genesis document.
-/

namespace Appchain

open Json Outcome

open Members (yields_required)

theorem Coins.yields_valid : Coins.wire.Yields Coins.Valid := by
  apply Wire.yields_refine
  intro cs a h
  exact valid_ofList (mapError_eq_ok.mp h)

theorem Packet.yields_valid : Packet.wire.Yields fun p => p.coins.Valid :=
  ((((Coins.yields_valid.required _).right _).left _).left _).record fun _ h => h

theorem BaseAccount.yields_valid : BaseAccount.wire.Yields fun a => a.coins.Valid :=
  (((((Coins.yields_valid.required _).right _).left _).left _).left _).record fun _ h => h

theorem NamedAccount.yields_valid : NamedAccount.wire.Yields fun a => a.base.coins.Valid :=
  ((BaseAccount.yields_valid.required _).right _).record fun _ h => h

theorem Send.yields_valid : Send.wire.Yields fun m => m.amount.Valid :=
  ((Coins.yields_valid.required _).right _).record fun _ h => h

theorem Transfer.yields_valid : Transfer.wire.Yields fun m => m.packet.coins.Valid :=
  (Packet.yields_valid.required _).record fun _ h => h

theorem Receive.yields_valid : Receive.wire.Yields fun m => m.packet.coins.Valid :=
  (((Packet.yields_valid.required _).left _).left _).record fun _ h => h

theorem Fee.yields_valid : Fee.wire.Yields fun f => f.amount.Valid :=
  ((Coins.yields_valid.required _).left _).record fun _ h => h

theorem Message.yields_valid (tag : String) (r : Reader Message) (h : reader? tag = some r) :
    r.Yields Message.Valid := by
  unfold reader? at h
  split at h <;> cases h
  · exact Send.yields_valid.reader fun _ h => h
  · exact Transfer.yields_valid.reader fun _ h => h
  · exact Receive.yields_valid.reader fun _ h => h
  all_goals exact (Wire.yields_true _).reader fun _ _ => trivial

theorem Account.yields_valid (tag : String) (r : Reader Account) (h : reader? tag = some r) :
    r.Yields fun a => a.coins.Valid := by
  unfold reader? at h
  split at h <;> cases h
  · exact BaseAccount.yields_valid.reader fun _ h => h
  · exact NamedAccount.yields_valid.reader fun _ h => h

namespace Transaction

theorem yields_validFee {μ : Type} (s : Shape μ) :
    (TransactionOf.shape s).Yields fun t => t.fee.amount.Valid := by
  refine Members.Yields.shape
    (Members.Yields.iso (P := fun p => p.1.1.2.amount.Valid) ?_ fun _ h => h)
  refine ((Members.Yields.right (Members.yields_field Fee.yields_valid.json fun f hf => ?_) _).left _).left _
  cases hf
  exact Coins.valid_empty

variable {r : TypeRegistry} {t : Transaction} {text : Bytes}

theorem unpack_eq_ok {u : TransactionOf Envelope} : unpack r u = .ok t ↔
    ∃ ms, u.messages.mapM r.ofEnvelope = .ok ms ∧ t = u.withMessages ms := by
  simp only [unpack, bind_eq_ok, pure_eq_ok]

/-- How a transaction comes out of a text. -/
theorem decode_eq_ok : decode r text = .ok t ↔ ∃ e, Envelope.shape.decode text = .ok e ∧
    r.isRegistered interface e.tag = true ∧ e.tag = tag ∧
      ∃ u, (TransactionOf.shape Envelope.shape).read e.value.toDoc = .ok u ∧ unpack r u = .ok t := by
  unfold decode
  rw [bind_eq_ok]
  simp only [mapError_eq_ok]
  refine exists_congr fun e => and_congr_right fun _ => ?_
  rw [check_bind_eq_ok, TypeRegistry.ensure_eq_ok_iff]
  refine and_congr_right fun _ => ?_
  split
  · next h => simp only [h, true_and, bind_eq_ok, mapError_eq_ok]
  · next h => simp [h]

/-- A transaction that has been decoded. -/
theorem valid_of_decode (h : decode r text = .ok t) : t.Valid := by
  obtain ⟨e, -, -, -, u, hu, ht⟩ := decode_eq_ok.mp h
  obtain ⟨ms, hm, rfl⟩ := unpack_eq_ok.mp ht
  constructor
  · exact (yields_validFee _).of_read _ u hu
  · intro m hmem
    obtain ⟨e, he⟩ := mem_of_mapM hm m hmem
    exact TypeRegistry.of_ofEnvelope Message.yields_valid he

end Transaction

theorem AuthState.yields_valid (depth : Nat) :
    (AuthState.shape depth).Yields fun s => s.collectedFees.Valid := by
  refine Members.Yields.shape (Members.Yields.iso (P := fun p => p.2.Valid) ?_ fun _ h => h)
  refine Members.Yields.flatten (Members.yields_field Coins.yields_valid.json fun c hc => ?_) _ _
  cases hc
  exact Coins.valid_empty

theorem GenesisAccount.yields_valid : GenesisAccount.wire.Yields fun a => a.coins.Valid :=
  ((Coins.yields_valid.required _).right _).record fun _ h => h

theorem PacketQueue.yields_valid :
    PacketQueue.wire.Yields fun q => ∀ p ∈ q.packets, p.coins.Valid :=
  ((Packet.yields_valid.list.required _).right _).record fun _ h => h

theorem ChannelState.yields_valid :
    ChannelState.wire.Yields fun s => ∀ q ∈ s.queues, ∀ p ∈ q.packets, p.coins.Valid := by
  refine ((PacketQueue.yields_valid.list.field _ fun qs hq => ?_).left _).record fun _ h => h
  cases hq
  exact nofun

namespace Genesis

theorem yields_validFees : shape.Yields fun g => g.auth.collectedFees.Valid := by
  refine Members.Yields.strictShape
    (Members.Yields.iso (P := fun p => p.1.1.2.collectedFees.Valid) ?_ fun _ h => h)
  refine ((Members.Yields.right (Members.yields_field (AuthState.yields_valid 1)
    fun s hs => ?_) _).left _).left _
  cases hs
  exact Coins.valid_empty

theorem yields_validAccounts : shape.Yields fun g => ∀ a ∈ g.accounts, a.coins.Valid := by
  refine Members.Yields.strictShape
    (Members.Yields.iso (P := fun p => ∀ a ∈ p.1.1.1.1.1, a.coins.Valid) ?_ fun _ h => h)
  exact (((((yields_required GenesisAccount.yields_valid.json.list).left _).left _).left _).left _).left _

theorem yields_validPackets :
    shape.Yields fun g => ∀ q ∈ g.channels.queues, ∀ p ∈ q.packets, p.coins.Valid := by
  refine Members.Yields.strictShape
    (Members.Yields.iso (P := fun p => ∀ q ∈ p.1.2.queues, ∀ x ∈ q.packets, x.coins.Valid) ?_
      fun _ h => h)
  refine (Members.Yields.right (Members.yields_field ChannelState.yields_valid.json fun s hs => ?_) _).left _
  cases hs
  intro q hq
  cases hq

/-- A genesis document that has been decoded. -/
theorem valid_of_decode {document : Bytes} {g : Genesis} (h : decode document = .ok g) : g.Valid := by
  have hd := mapError_eq_ok.mp h
  exact ⟨yields_validFees.decode hd, yields_validAccounts.decode hd, yields_validPackets.decode hd⟩

end Genesis
end Appchain
