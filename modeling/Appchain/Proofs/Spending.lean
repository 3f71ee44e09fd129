import Appchain.Proofs.AppRuns
import Appchain.Proofs.Signatures

/-!
# Spending

Only those who sign a transaction can lose by it. Everybody else keeps the
account and the bond that they had and can only be paid, and each signer has
signed for the account as it was before the transaction.
-/

namespace Appchain

open Outcome

namespace App

variable {a b : App} {l : Ledger} {g : Genesis} {ts : List Transaction} {text : Bytes}
  {t : Transaction}

/-- The account of an address, as it is read off the stores. -/
def account (a : App) (holder : Address) : Except TxError (Option Account) :=
  a.read (Accounts.get? holder)

/-- The bond of an address, as it is read off the stores. -/
def bond (a : App) (holder : Address) : Except TxError (Option Bond) := a.read (Staking.get? holder)

theorem Holds.account_eq (h : a.Holds l) (holder : Address) :
    a.account holder = .ok (l.accounts.get? holder) := h.read_eq (Accounts.reads_get? holder)

theorem Holds.bond_eq (h : a.Holds l) (holder : Address) :
    a.bond holder = .ok (l.bonds.get? holder) := h.read_eq (Staking.reads_get? holder)

/-- A transaction that is accepted is carried out on the ledger. -/
theorem Holds.perform_of_accepted (h : a.Holds l) (hl : l.WellFormed)
    (ht : a.accepted (.deliver text) = some t) :
    ∃ b n, a.perform (.deliver text) = .ok b ∧ b.Holds n ∧ l.execute .deliver t = .ok n := by
  obtain ⟨b, n, hb, hn, he⟩ := h.perform hl (e := .deliver text) nofun
  rw [ht] at he
  obtain ⟨k, hk, hkn⟩ := bind_eq_ok.mp he
  cases hkn
  exact ⟨b, n, hb, hn, hk⟩

/-- Whoever has not signed an accepted transaction keeps the same account with no less of any coin,
and the same bond or none. Whoever has signed it did so with the number and the sequence that the
account had, and with the key that the address comes from. -/
theorem Run.only_signers_pay (h : Run g ts a) (ht : a.accepted (.deliver text) = some t) :
    ∃ b, a.perform (.deliver text) = .ok b ∧
      (∀ p, p ∉ t.signers →
        (∃ before after, a.account p = .ok before ∧ b.account p = .ok after ∧
          ∀ x, before = some x → ∃ c, after = some (x.withCoins c) ∧
            ∀ d, x.coins.amountOf d ≤ c.amountOf d) ∧
        ∃ bond, a.bond p = .ok bond ∧ b.bond p = .ok bond) ∧
      ∀ p, p ∈ t.signers → ∃ x s bytes, a.account p = .ok (some x) ∧ (p, s) ∈ t.signed ∧
        s.accountNumber = x.number ∧ s.sequence = x.sequence ∧
        Hex.decode s.publicKey = .ok bytes ∧ Address.ofPublicKey bytes = p := by
  obtain ⟨start, l, -, -, hh, hl⟩ := h.holds
  obtain ⟨b, n, hb, hn, he⟩ := hh.perform_of_accepted hl ht
  obtain ⟨k, hk⟩ := Ledger.exists_executes hl he
  refine ⟨b, hb, fun p hp => ?_, fun p hp => ?_⟩
  · have hs := hk.spares hp
    refine ⟨⟨_, _, hh.account_eq p, hn.account_eq p, hs.account⟩, _, hh.bond_eq p, ?_⟩
    rw [hn.bond_eq, hs.bond]
  · obtain ⟨s, x, y, hs, hx, hy, -⟩ := hk.exists_signs hp
    obtain ⟨bytes, hd, ha⟩ := hy.key
    refine ⟨x, s, bytes, ?_, hs, hy.number, hy.sequence, hd, ha⟩
    rw [hh.account_eq, hx]

/-! A chain with two accounts, of which one pays the other. -/

namespace Sample

def friend : Address := ⟨List.replicate 20 8, rfl⟩

def shared : Genesis :=
  { genesis with accounts := [⟨holder, .single "pow" 5⟩, ⟨friend, .single "pow" 1⟩] }

def payment : Transaction where
  messages := [.send ⟨holder, friend, .single "pow" 3⟩]
  fee := ⟨.empty, 0⟩
  signatures := [⟨"07", "aa", 0, 0⟩]
  memo := ""

def paymentText : Bytes := (payment.encode .standard).toOption.getD []

theorem valid_shared : shared.Valid where
  fees := Coins.valid_empty
  accounts := by
    intro a ha
    rcases List.mem_cons.mp ha with rfl | ha
    · exact Coins.valid_single (by decide) 5
    · rw [List.mem_singleton.mp ha]
      exact Coins.valid_single (by decide) 1
  packets := nofun

theorem valid_payment : payment.Valid where
  fee := Coins.valid_empty
  messages := List.forall_mem_singleton.mpr (Coins.valid_single (by decide) 3)

theorem decode_paymentText : Transaction.decode .standard paymentText = .ok payment :=
  Transaction.decode_encoded valid_payment

theorem execute_payment : ∃ l n x, Ledger.ofGenesis shared = .ok l ∧
    l.accounts.get? friend = some x ∧ l.execute .deliver payment = .ok n := by
  have h : ((Ledger.ofGenesis shared).toOption.bind fun l => (l.accounts.get? friend).bind fun _ =>
    (l.execute .deliver payment).toOption).isSome = true := by decide +kernel
  obtain ⟨n, h⟩ := Option.isSome_iff_exists.mp h
  obtain ⟨l, hl, h⟩ := Option.bind_eq_some_iff.mp h
  obtain ⟨x, hx, hn⟩ := Option.bind_eq_some_iff.mp h
  exact ⟨l, n, x, toOption_eq_some.mp hl, hx, toOption_eq_some.mp hn⟩

end Sample

/-- Who is paid keeps the account and loses nothing; who pays has signed. -/
theorem Run.only_signers_pay_payment :
    ∃ a b x c s, Run Sample.shared [] a ∧
      a.accepted (.deliver Sample.paymentText) = some Sample.payment ∧
      a.perform (.deliver Sample.paymentText) = .ok b ∧
      a.account Sample.friend = .ok (some x) ∧ b.account Sample.friend = .ok (some (x.withCoins c)) ∧
      (∀ d, x.coins.amountOf d ≤ c.amountOf d) ∧ (Sample.holder, s) ∈ Sample.payment.signed := by
  obtain ⟨l, n, x, hl, hx, hn⟩ := Sample.execute_payment
  obtain ⟨a, ha, hh, -⟩ := exists_run (Genesis.decode_document Sample.valid_shared) hl
  obtain ⟨b, hb, -, -⟩ := hh.deliver_of_ok Sample.decode_paymentText hn
  have hacc : a.accepted (.deliver Sample.paymentText) = some Sample.payment := by
    rw [accepted_deliver hb, Sample.decode_paymentText]
    rfl
  obtain ⟨b', hp, hothers, hsigners⟩ := Run.only_signers_pay ha hacc
  have hpayer : Sample.payment.signers = [Sample.holder] := rfl
  have hfriend : Sample.friend ∉ Sample.payment.signers := by
    rw [hpayer, List.mem_singleton]
    decide +kernel
  obtain ⟨⟨before, after, hbefore, hafter, hkept⟩, -⟩ := hothers Sample.friend hfriend
  have hx' : before = some x := by
    rw [hh.account_eq, hx] at hbefore
    exact (Except.ok.inj hbefore).symm
  obtain ⟨c, hc, hle⟩ := hkept x hx'
  obtain ⟨-, s, -, -, hs, -⟩ := hsigners Sample.holder (List.mem_singleton.mpr rfl)
  exact ⟨a, b', x, c, s, ha, hacc, hp, hx' ▸ hbefore, hc ▸ hafter, hle, hs⟩

end App
end Appchain
