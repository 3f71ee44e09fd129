import Appchain.Proofs.Encodings
import Appchain.Proofs.GenesisRuns
import Appchain.Proofs.RoundTrips

/-!
# Genesis documents read back

A genesis is decoded from the document that it is written as. Every section is a
record of fields that read back; the parameters, which are members of the section
that carries them, read back because they are words.
-/

namespace Appchain

open Json
open Wire (portable_word portable_text)

theorem GenesisAccount.portable (n : Nat) {a : GenesisAccount} (h : a.coins.Valid) :
    GenesisAccount.wire.Portable (n + 3) a :=
  (((Address.portable _ _).field _ _).append ((Coins.portable n h).field _ _) (by decide)).record rfl

theorem Mining.State.portable (n : Nat) (s : Mining.State) : Mining.State.wire.Portable (n + 1) s :=
  (((portable_word n _).field _ _).append ((portable_word _ _).field _ _) (by decide)).record rfl

theorem TrendState.portable (n : Nat) (s : TrendState) : TrendState.wire.Portable (n + 1) s :=
  ((portable_text n _).field _ _).record rfl

theorem PacketQueue.portable (n : Nat) {q : PacketQueue} (h : ∀ p ∈ q.packets, p.coins.Valid) :
    PacketQueue.wire.Portable (n + 5) q :=
  (((portable_text _ _).field _ _).append
    ((Wire.Portable.list fun p hp => Packet.portable n (h p hp)).field _ _) (by decide)).record rfl

theorem ChainSequence.portable (n : Nat) (c : ChainSequence) :
    ChainSequence.wire.Portable (n + 1) c :=
  (((portable_text n _).field _ _).append ((portable_word _ _).field _ _) (by decide)).record rfl

theorem ChannelState.portable (n : Nat) {s : ChannelState}
    (h : ∀ q ∈ s.queues, ∀ p ∈ q.packets, p.coins.Valid) :
    ChannelState.wire.Portable (n + 7) s :=
  (((Wire.Portable.list fun q hq => PacketQueue.portable n (h q hq)).field _ _).append
    ((Wire.Portable.list fun c _ => ChainSequence.portable (n + 4) c).field _ _)
    (by decide)).record rfl

theorem StakingState.portable (n : Nat) (s : StakingState) : StakingState.wire.Portable (n + 3) s :=
  ((Wire.Portable.list fun b _ => Bond.portable n b).field _ _).record rfl

theorem AuthParameters.portable_fields (n : Nat) (p : AuthParameters) :
    AuthParameters.fields.Portable n p :=
  (((portable_word n _).field _ _).append ((portable_word _ _).field _ _) (by decide)).iso rfl

theorem AuthState.roundTrips {s : AuthState} (h : s.collectedFees.Valid) (depth : Nat) :
    (AuthState.shape depth).RoundTrips s := by
  have hp := (AuthParameters.portable_fields 0 s.parameters).members.toRoundTrips
  have hf := (Coins.portable 0 h).json.toRoundTrips.field "collected_fees" (.defaulted .empty)
  constructor
  · refine Members.ReadsBack.shape (Members.ReadsBack.iso ?_ rfl)
    refine hp.flatten hf (by decide) fun e he => ?_
    have hw : e ∈ [("max_memo_characters", Json.word s.parameters.maximumMemo),
        ("tx_sig_limit", Json.word s.parameters.maximumSignatures)] := he
    rcases List.mem_cons.mp hw with rfl | hw
    · simp [ofDoc, toDoc]
    · cases List.mem_singleton.mp hw
      simp [ofDoc, toDoc]
  · change areDataMembers (_ ++ _) = true
    rw [areDataMembers_append, hp.areData, hf.areData]
    rfl

namespace Genesis

open Shape (RoundTrips)

theorem roundTrips {g : Genesis} (h : g.Valid) : Genesis.shape.RoundTrips g := by
  have haccounts : GenesisAccount.wire.json.list.RoundTrips g.accounts :=
    .list fun a ha => (GenesisAccount.portable 0 (h.accounts a ha)).json.toRoundTrips
  have hmining := (Mining.State.portable 0 g.mining).json.toRoundTrips
  have htrend := (TrendState.portable 0 g.trend).json.toRoundTrips
  have hauth := AuthState.roundTrips h.fees 1
  have hchannels := (ChannelState.portable 0 h.packets).json.toRoundTrips
  have hstaking := (StakingState.portable 0 g.staking).json.toRoundTrips
  refine Members.RoundTrips.strictShape (Members.RoundTrips.iso ?_ rfl)
  exact (((((haccounts.field _ _).append (hmining.field _ _) (by decide)).append
    (htrend.field _ _) (by decide)).append (hauth.field _ _) (by decide)).append
    (hchannels.field _ _) (by decide)).append (hstaking.field _ _) (by decide)

/-- A genesis is decoded from its document. -/
theorem decode_document {g : Genesis} (h : g.Valid) : decode g.document = .ok g := by
  unfold decode document
  rw [(roundTrips h).readsBack.decode_pretty (roundTrips h).isData]
  rfl

end Genesis
end Appchain
