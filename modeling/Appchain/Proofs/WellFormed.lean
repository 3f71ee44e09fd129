import Appchain.Proofs.LedgerChanges
import Appchain.Proofs.SignedAccounts

/-!
# Well-formed ledgers

Accounts and bonds are filed under their holders, recorded keys belong to them,
bonds have power, and the values that a chain starts with are there and stay
within what a genesis document may say. Every message that has been checked
preserves this, and so does every transaction.
-/

namespace Appchain

open Outcome

theorem Word.succ_ne_zero {a : UInt64} (h : a ≠ 0) : Word.succ a ≠ 0 := by
  by_cases hm : a = Word.maximum
  · rw [Word.succ, if_pos hm]
    exact h
  · intro h0
    have hs := Word.toNat_succ hm
    rw [h0] at hs
    simp at hs

/-- The account may be filed under the address. -/
structure Account.FitsUnder (x : Account) (a : Address) : Prop where
  address_eq : x.address = a
  key_of : ∀ key, x.publicKey = some key →
    ∃ bytes, Hex.decode key = .ok bytes ∧ Address.ofPublicKey bytes = a

namespace Account

variable {x y : Account} {a : Address}

theorem FitsUnder.of_eq (h : x.FitsUnder a) (ha : y.address = x.address)
    (hk : y.publicKey = x.publicKey) : y.FitsUnder a :=
  ⟨ha.trans h.address_eq, hk ▸ h.key_of⟩

@[simp] theorem publicKey_withCoins (c : Coins) (x : Account) :
    (x.withCoins c).publicKey = x.publicKey := by simp [withCoins, publicKey]

theorem FitsUnder.withCoins (h : x.FitsUnder a) (c : Coins) : (x.withCoins c).FitsUnder a :=
  h.of_eq (address_withCoins c x) (publicKey_withCoins c x)

theorem fitsUnder_new (a : Address) (n : UInt64) : ((Account.new a).withNumber n).FitsUnder a where
  address_eq := rfl
  key_of key h := by cases h

end Account

namespace Admission

open Account

theorem fitsUnder_signed {x y : Account} {a : Address} {g : Signature} (hx : x.FitsUnder a)
    (h : signed x a g = .ok y) : y.FitsUnder a := by
  obtain ⟨key, hk, rfl⟩ := signed_eq_ok_iff.mp h
  refine ⟨(address_signedWith x key).trans hx.address_eq, fun text ht => ?_⟩
  rw [publicKey_signedWith] at ht
  cases hp : x.publicKey with
  | none =>
    rw [hp] at ht
    cases ht
    exact ⟨key, Hex.decode_encode key, hk.address⟩
  | some known =>
    rw [hp] at ht
    cases ht
    exact hx.key_of known hp

end Admission

namespace Ledger

variable {l n : Ledger}

def AccountsFit (m : OrderedMap Address Account) : Prop :=
  ∀ a x, m.get? a = some x → x.FitsUnder a

structure WellFormed (l : Ledger) : Prop where
  accounts : AccountsFit l.accounts
  bonds : ∀ a b, l.bonds.get? a = some b → b.holder = a ∧ b.power ≠ 0
  work : ∃ difficulty count, l.difficulty = some difficulty ∧ l.count = some count ∧ difficulty ≠ 0
  trend : ∃ trend, l.trend = some trend ∧ trend ≠ ""
  limits : ∃ memo signatures, l.memoLimit = some memo ∧ l.signatureLimit = some signatures ∧
    signatures ≠ 0
  packets : ∀ c i p, l.packets c i = some p → p.destination = c
  lengths : ∀ c n, l.lengths.get? c = some n → isChainId c.text = true
  sequences : ∀ c n, l.sequences.get? c = some n → isChainId c.text = true

theorem AccountsFit.insert {m : OrderedMap Address Account} (h : AccountsFit m) {x : Account}
    (hx : x.FitsUnder x.address) : AccountsFit (m.insert x.address x) := by
  intro a y hy
  rw [OrderedMap.get?_insert] at hy
  split at hy
  · next he =>
    cases hy
    rw [he]
    exact hx
  · exact h a y hy

theorem AccountsFit.put (h : AccountsFit l.accounts) {x : Account} {a : Address}
    (hx : x.FitsUnder a) : AccountsFit (l.put x).accounts :=
  h.insert (hx.address_eq.symm ▸ hx)

theorem AccountsFit.getOrCreate (h : AccountsFit l.accounts) (a : Address) :
    (l.getOrCreate a).1.FitsUnder a ∧ AccountsFit (l.getOrCreate a).2.accounts := by
  unfold Ledger.getOrCreate
  split
  · next x hx => exact ⟨h a x hx, h⟩
  · exact ⟨Account.fitsUnder_new a _, h⟩

theorem AccountsFit.debit (h : AccountsFit l.accounts) {a : Address} {amount : Coins}
    (hd : l.debit a amount = .ok n) : AccountsFit n.accounts := by
  obtain ⟨x, rest, hx, -, rfl⟩ := debit_eq_ok.mp hd
  exact h.put ((h a x hx).withCoins rest)

theorem AccountsFit.credit (h : AccountsFit l.accounts) {a : Address} {amount : Coins}
    (hc : l.credit a amount = .ok n) : AccountsFit n.accounts := by
  obtain ⟨total, -, rfl⟩ := credit_eq_ok.mp hc
  obtain ⟨hx, ha⟩ := h.getOrCreate a
  exact ha.put (hx.withCoins total)

theorem getOrCreate_put {x : Account} {a : Address} (hx : x.address ≠ a) :
    (l.put x).getOrCreate a = ((l.getOrCreate a).1, (l.getOrCreate a).2.put x) := by
  have hg : (l.put x).accounts.get? a = l.accounts.get? a := by
    unfold put
    rw [OrderedMap.get?_insert, if_neg hx.symm]
  unfold getOrCreate
  rw [hg]
  split <;> rfl

/-- Coins that go to someone else are debited here and credited there. -/
theorem send_eq_ok_of_ne {source target : Address} {amount : Coins} (hne : source ≠ target)
    (hs : ∀ x, l.accounts.get? source = some x → x.address = source) :
    l.send source target amount = .ok n ↔
      ∃ k, l.debit source amount = .ok k ∧ k.credit target amount = .ok n := by
  have hcreate {x : Account} (hx : l.accounts.get? source = some x) (rest : Coins) :
      (l.put (x.withCoins rest)).getOrCreate target =
        ((l.getOrCreate target).1, (l.getOrCreate target).2.put (x.withCoins rest)) := by
    apply getOrCreate_put
    rw [Account.address_withCoins, hs x hx]
    exact hne
  rw [send_eq_ok]
  simp only [if_neg hne, debit_eq_ok, paying_eq_ok, receiving_eq_ok, credit_eq_ok]
  constructor
  · rintro ⟨_, ⟨x, rest, hx, hr, rfl⟩, _, ⟨total, ht, rfl⟩, rfl⟩
    refine ⟨_, ⟨x, rest, hx, hr, rfl⟩, total, ?_⟩
    rw [hcreate hx]
    exact ⟨ht, rfl⟩
  · rintro ⟨_, ⟨x, rest, hx, hr, rfl⟩, total, ht⟩
    rw [hcreate hx] at ht
    exact ⟨_, ⟨x, rest, hx, hr, rfl⟩, _, ⟨total, ht.1, rfl⟩, ht.2⟩

theorem debit_credit_of_send (hf : AccountsFit l.accounts) {source target : Address}
    {amount : Coins} (hne : source ≠ target) (h : l.send source target amount = .ok n) :
    ∃ k, l.debit source amount = .ok k ∧ k.credit target amount = .ok n :=
  (send_eq_ok_of_ne hne fun x hx => (hf source x hx).address_eq).mp h

namespace WellFormed

/-- Only the accounts have changed. -/
theorem of_accounts (h : l.WellFormed) (hf : SameButAccounts l n) (ha : AccountsFit n.accounts) :
    n.WellFormed := by
  rw [hf]
  exact { h with accounts := ha }

theorem put (h : l.WellFormed) {x : Account} {a : Address} (hx : x.FitsUnder a) :
    (l.put x).WellFormed :=
  h.of_accounts (put_frame l x) (h.accounts.put hx)

theorem debit (h : l.WellFormed) {a : Address} {amount : Coins} (hd : l.debit a amount = .ok n) :
    n.WellFormed :=
  h.of_accounts (debit_frame hd) (h.accounts.debit hd)

theorem credit (h : l.WellFormed) {a : Address} {amount : Coins} (hc : l.credit a amount = .ok n) :
    n.WellFormed :=
  h.of_accounts (credit_frame hc) (h.accounts.credit hc)

theorem reward (h : l.WellFormed) {a : Address} {coin : Coin} (hr : l.reward a coin = .ok n) :
    n.WellFormed := by
  obtain ⟨paid, -, hc⟩ := reward_eq_ok.mp hr
  exact h.credit hc

theorem send (h : l.WellFormed) {source target : Address} {amount : Coins}
    (hs : l.send source target amount = .ok n) : n.WellFormed := by
  by_cases he : source = target
  · obtain ⟨payer, -, hs⟩ := send_eq_ok.mp hs
    rw [if_pos he] at hs
    rw [hs]
    exact h
  · obtain ⟨k, hd, hc⟩ := debit_credit_of_send h.accounts he hs
    exact (h.debit hd).credit hc

theorem post (h : l.WellFormed) {p : Packet} (hp : isChainId p.destination = true) :
    (l.post p).WellFormed where
  accounts := h.accounts
  bonds := h.bonds
  work := h.work
  trend := h.trend
  limits := h.limits
  packets c i q hq := by
    unfold Ledger.post at hq
    simp only at hq
    split at hq
    · next he =>
      cases hq
      exact he.1.symm
    · exact h.packets c i q hq
  lengths c m hm := by
    unfold Ledger.post at hm
    simp only at hm
    rw [OrderedMap.get?_insert] at hm
    split at hm
    · next he =>
      rw [he]
      exact hp
    · exact h.lengths c m hm
  sequences := h.sequences

theorem setSequence (h : l.WellFormed) {chain : String} (hc : isChainId chain = true) (m : UInt64) :
    (l.setSequence chain m).WellFormed := by
  refine { h with sequences := fun c k hk => ?_ }
  unfold Ledger.setSequence at hk
  simp only at hk
  rw [OrderedMap.get?_insert] at hk
  split at hk
  · next he =>
    rw [he]
    exact hc
  · exact h.sequences c k hk

theorem putBond (h : l.WellFormed) {b : Bond} (hb : b.power ≠ 0) : (l.putBond b).WellFormed := by
  refine { h with bonds := fun a c hc => ?_ }
  unfold Ledger.putBond at hc
  simp only at hc
  rw [OrderedMap.get?_insert] at hc
  split at hc
  · next he =>
    cases hc
    exact ⟨he.symm, hb⟩
  · exact h.bonds a c hc

theorem eraseBond (h : l.WellFormed) (a : Address) :
    WellFormed { l with bonds := l.bonds.erase a } := by
  refine { h with bonds := fun b c hc => ?_ }
  simp only at hc
  rw [OrderedMap.get?_erase] at hc
  split at hc
  · cases hc
  · exact h.bonds b c hc

theorem setWork (h : l.WellFormed) {w : Mining.State} (hw : w.difficulty ≠ 0) :
    (l.setWork w).WellFormed :=
  { h with work := ⟨w.difficulty, w.count, rfl, rfl, hw⟩ }

theorem setTrend (h : l.WellFormed) {trend : String} (ht : trend ≠ "") :
    (l.setTrend trend).WellFormed :=
  { h with trend := ⟨trend, rfl, ht⟩ }

theorem transfer (h : l.WellFormed) {m : Transfer} (hc : isChainId m.packet.destination = true)
    (ht : l.transfer m = .ok n) : n.WellFormed := by
  obtain ⟨k, hk, rfl⟩ := transfer_eq_ok.mp ht
  exact (h.debit hk).post hc

theorem receive (h : l.WellFormed) {m : Receive} (hc : isChainId m.packet.source = true)
    (hr : l.receive m = .ok n) : n.WellFormed := by
  obtain ⟨-, k, hk, rfl⟩ := receive_eq_ok.mp hr
  exact (h.credit hk).setSequence hc _

/-- The bond that a stake is added to is its holder's. -/
theorem holder_bondOf (h : l.WellFormed) (m : BondStake) : (l.bondOf m).holder = m.holder := by
  unfold bondOf
  cases hg : l.bonds.get? m.holder with
  | none => rfl
  | some b => exact (h.bonds m.holder b hg).1

theorem bond (h : l.WellFormed) {m : BondStake} (hs : m.stake.amount ≠ 0)
    (hb : l.bond m = .ok n) : n.WellFormed := by
  obtain ⟨-, k, power, hk, hp, rfl⟩ := bond_eq_ok.mp hb
  refine (h.debit hk).putBond fun h0 => hs ?_
  simp only at h0
  have hsum := Word.add?_eq_some_iff.mp hp
  rw [h0] at hsum
  apply UInt64.toNat.inj
  simp only [UInt64.toNat_zero] at hsum ⊢
  omega

theorem unbond (h : l.WellFormed) {a : Address} (hu : l.unbond a = .ok n) : n.WellFormed := by
  obtain ⟨b, -, hc⟩ := unbond_eq_ok.mp hu
  exact (h.eraseBond a).credit hc

theorem mine (h : l.WellFormed) {m : Mine} (hm : l.mine m = .ok n) : n.WellFormed := by
  obtain ⟨w, k, hw, hk, rfl⟩ := mine_eq_ok.mp hm
  obtain ⟨difficulty, count, hd, -, rfl, -⟩ := nextWork_eq_ok.mp hw
  obtain ⟨d, c, hd', -, hne⟩ := h.work
  rw [hd] at hd'
  cases hd'
  exact (h.reward hk).setWork (Word.succ_ne_zero hne)

theorem quiz (h : l.WellFormed) {mode : Mode} {m : Quiz} (hq : l.quiz mode m = .ok n) :
    n.WellFormed := by
  obtain ⟨-, hq⟩ := quiz_eq_ok.mp hq
  split at hq
  · rw [hq]
    exact h
  · exact h.reward hq

end WellFormed
end Ledger

theorem isChainId_of_check {chain : String} (h : checkChainId chain = .ok ()) :
    isChainId chain = true := by
  unfold checkChainId at h
  split at h
  · next hc => exact hc
  · cases h

theorem Packet.chains_of_check {p : Packet} (h : p.check = .ok ()) :
    isChainId p.source = true ∧ isChainId p.destination = true := by
  obtain ⟨_, hs, h⟩ := bind_eq_ok.mp h
  obtain ⟨_, hd, -⟩ := bind_eq_ok.mp h
  exact ⟨isChainId_of_check hs, isChainId_of_check hd⟩

theorem Receive.packet_of_check {m : Receive} (h : m.check = .ok ()) : m.packet.check = .ok () :=
  (guard_eq_ok.mp h).2

theorem BondStake.amount_of_check {m : BondStake} (h : m.check = .ok ()) : m.stake.amount ≠ 0 := by
  obtain ⟨-, h⟩ := guard_eq_ok.mp h
  exact (guard_eq_ok.mp h).1

theorem SetTrend.trend_of_check {m : SetTrend} (h : m.check = .ok ()) : m.trend ≠ "" := by
  obtain ⟨-, h⟩ := guard_eq_ok.mp h
  exact (guard_eq_ok.mp h).1

theorem Transaction.messages_of_check {t : Transaction} (h : t.check = .ok ()) :
    ∀ m ∈ t.messages, m.check = .ok () :=
  forM_eq_ok (guard_eq_ok.mp h).2

namespace Ledger

variable {l n : Ledger}

namespace WellFormed

theorem apply (h : l.WellFormed) {mode : Mode} {m : Message} (hc : m.check = .ok ())
    (ha : l.apply mode m = .ok n) : n.WellFormed := by
  cases m with
  | send m => exact h.send ha
  | transfer m => exact h.transfer (Packet.chains_of_check hc).2 ha
  | receive m => exact h.receive (Packet.chains_of_check (Receive.packet_of_check hc)).1 ha
  | bond m => exact h.bond (BondStake.amount_of_check hc) ha
  | unbond m => exact h.unbond ha
  | mine m => exact h.mine ha
  | setTrend m =>
    cases ha
    exact h.setTrend (SetTrend.trend_of_check hc)
  | quiz m => exact h.quiz ha

theorem authorize (h : l.WellFormed) {signer : Address} {g : Signature}
    (ha : l.authorize signer g = .ok n) : n.WellFormed := by
  obtain ⟨x, y, hx, hy, rfl⟩ := authorize_eq_ok.mp ha
  exact h.put (Admission.fitsUnder_signed (h.accounts signer x hx) hy)

theorem addFee (h : l.WellFormed) {fee : Coins} (ha : l.addFee fee = .ok n) : n.WellFormed := by
  obtain ⟨total, -, rfl⟩ := addFee_eq_ok.mp ha
  exact { h with }

theorem charge (h : l.WellFormed) {payer : Address} {fee : Coins}
    (hc : l.charge payer fee = .ok n) : n.WellFormed := by
  have hc := charge_eq_ok.mp hc
  split at hc
  · rw [hc]
    exact h
  · obtain ⟨k, hk, hn⟩ := hc
    exact (h.debit hk).addFee hn

theorem screen (h : l.WellFormed) {t : Transaction} (ha : l.screen t = .ok n) : n.WellFormed := by
  apply screen_preserves ha _ _ h
  · intro k k' signer g hk
    exact hk.authorize
  · intro k k' payer fee hk
    exact hk.charge

/-- Every transaction leaves a well-formed ledger. -/
theorem execute (h : l.WellFormed) {mode : Mode} {t : Transaction}
    (he : l.execute mode t = .ok n) : n.WellFormed := by
  obtain ⟨hc, k, hk, hn⟩ := execute_eq_ok.mp he
  refine foldlM_preserves (fun m hm a b ha => ?_) (h.screen hk) hn
  exact ha.apply (Transaction.messages_of_check hc m hm)

end WellFormed
end Ledger
end Appchain
