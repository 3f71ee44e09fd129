import Appchain.Module.Bank
import Appchain.Proofs.DecodedCoins
import Appchain.Proofs.Movements
import Appchain.Proofs.WrittenContexts

/-!
# Accounts that can be read

A context whose accounts can be read answers for each address with the account that is
filed under it. Storing an account changes what is answered for its address, taking a
number changes the number of the next account, and the accounts can still be read.
-/

namespace Appchain

open Layout Outcome

/-- A key of an account is not the key of the counter. -/
theorem Accounts.key_ne_counterKey (a : Address) : key a ≠ counterKey := by
  intro h
  have hp : root <+: counterKey := h ▸ List.prefix_append root a.bytes
  exact absurd hp (by decide)

theorem Accounts.key_injective {a b : Address} (h : key a = key b) : a = b :=
  FileName.bytes_injective (List.append_cancel_left h)

namespace Context

variable {c : Context} {a b : Address} {x : Account} {n : UInt64}

/-- The account that is filed under an address, if it can be decoded. -/
def account? (c : Context) (a : Address) : Option Account :=
  ((c.contents .accounts).get? (Accounts.key a)).bind fun b =>
    (TypeRegistry.standard.ofBytes b).toOption

/-- The coins of an address, none if it has no account. -/
def balance (c : Context) (a : Address) : Coins := ((c.account? a).map Account.coins).getD .empty

/-- The number of the next account. -/
def counter (c : Context) : Except Fault UInt64 :=
  (c.stored? .accounts .word Accounts.counterKey).map fun n => n.getD 0

/-- The store of the accounts is open, and what is filed under an address is an account of that
address. -/
structure ReadsAccounts (c : Context) : Prop where
  opens : c.Opens .accounts
  filed : ∀ a b, (c.contents .accounts).get? (Accounts.key a) = some b →
    ∃ x : Account, TypeRegistry.standard.ofBytes b = .ok x ∧ x.address = a

/-- The context after an account has been stored. -/
def withAccount (c : Context) (x : Account) : Context :=
  c.wrote .accounts (Accounts.key x.address) x.bytes

/-- The context after the number of the next account has been stored. -/
def withCounter (c : Context) (n : UInt64) : Context :=
  c.wrote .accounts Accounts.counterKey (word.write n)

theorem Opens.withAccount {key : StoreKey} (h : c.Opens key) (x : Account) :
    (c.withAccount x).Opens key := h

theorem account?_eq_some : c.account? a = some x ↔
    ∃ b, (c.contents .accounts).get? (Accounts.key a) = some b ∧
      TypeRegistry.standard.ofBytes b = .ok x := by
  simp only [account?, Option.bind_eq_some_iff, toOption_eq_some]

/-- What has been decoded carries coins that may be listed. -/
theorem valid_of_account? (h : c.account? a = some x) : x.coins.Valid := by
  obtain ⟨b, -, hb⟩ := account?_eq_some.mp h
  exact TypeRegistry.of_ofBytes (P := fun x => x.coins.Valid) Account.yields_valid hb

theorem balance_of_account? (h : c.account? a = some x) : c.balance a = x.coins := by
  unfold balance
  rw [h]
  rfl

theorem valid_balance (c : Context) (a : Address) : (c.balance a).Valid := by
  cases h : c.account? a with
  | none =>
    unfold balance
    rw [h]
    exact Coins.valid_empty
  | some x =>
    rw [balance_of_account? h]
    exact valid_of_account? h

theorem ReadsAccounts.address_eq (h : c.ReadsAccounts) (hx : c.account? a = some x) :
    x.address = a := by
  obtain ⟨b, hb, hd⟩ := account?_eq_some.mp hx
  obtain ⟨y, hy, ha⟩ := h.filed a b hb
  rw [hd] at hy
  cases hy
  exact ha

theorem account?_withAccount_self (c : Context) (ha : x.address = a) (hx : x.coins.Valid) :
    (c.withAccount x).account? a = some x := by
  subst ha
  refine account?_eq_some.mpr ⟨x.bytes, ?_, Account.ofBytes_bytes hx⟩
  exact c.get?_contents_wrote_self ..

theorem account?_withAccount_of_ne (c : Context) (h : a ≠ x.address) :
    (c.withAccount x).account? a = c.account? a := by
  unfold account? withAccount
  rw [c.get?_contents_wrote_of_ne (mt Accounts.key_injective h)]

theorem counter_withAccount (c : Context) (x : Account) :
    (c.withAccount x).counter = c.counter := by
  unfold counter withAccount
  rw [stored?_wrote_of_ne _ c (Accounts.key_ne_counterKey x.address).symm]

theorem counter_withCounter (c : Context) (n : UInt64) : (c.withCounter n).counter = .ok n := by
  unfold counter withCounter
  rw [stored?_wrote_self (readsBack_word n)]
  rfl

namespace ReadsAccounts

theorem withAccount (h : c.ReadsAccounts) (hx : x.coins.Valid) :
    (c.withAccount x).ReadsAccounts where
  opens := h.opens.withAccount x
  filed a b hb := by
    unfold Context.withAccount at hb
    by_cases he : Accounts.key a = Accounts.key x.address
    · rw [he, c.get?_contents_wrote_self] at hb
      cases hb
      exact ⟨x, Account.ofBytes_bytes hx, (Accounts.key_injective he).symm⟩
    · rw [c.get?_contents_wrote_of_ne he] at hb
      exact h.filed a b hb

theorem withCounter (h : c.ReadsAccounts) (n : UInt64) : (c.withCounter n).ReadsAccounts where
  opens := h.opens.wrote ..
  filed a b hb := by
    unfold Context.withCounter at hb
    rw [c.get?_contents_wrote_of_ne (Accounts.key_ne_counterKey a)] at hb
    exact h.filed a b hb

end ReadsAccounts

/-- The account of an address, a new one with the number `n` if it has none. -/
def accountFor (c : Context) (a : Address) (n : UInt64) : Account :=
  (c.account? a).getD ((Account.new a).withNumber n)

/-- The context after the account of an address has been found, or `n` has been taken as the number
of a new one. -/
def counted (c : Context) (a : Address) (n : UInt64) : Context :=
  if (c.account? a).isSome then c else c.withCounter (n + 1)

theorem coins_accountFor (c : Context) (a : Address) (n : UInt64) :
    (c.accountFor a n).coins = c.balance a := by
  unfold accountFor balance
  cases c.account? a <;> rfl

theorem ReadsAccounts.address_accountFor (h : c.ReadsAccounts) (a : Address) (n : UInt64) :
    (c.accountFor a n).address = a := by
  unfold accountFor
  cases hx : c.account? a with
  | none => rfl
  | some x => exact h.address_eq hx

theorem ReadsAccounts.counted (h : c.ReadsAccounts) (a : Address) (n : UInt64) :
    (c.counted a n).ReadsAccounts := by
  unfold Context.counted
  split
  · exact h
  · exact h.withCounter (n + 1)

/-- The address has an account that covers the amount. -/
def Affords (c : Context) (a : Address) (amount : Coins) : Prop :=
  ∃ x, c.account? a = some x ∧ ∀ e, amount.amountOf e ≤ x.coins.amountOf e

theorem affords_iff {amount : Coins} : c.Affords a amount ↔
    ∃ x rest, c.account? a = some x ∧ x.coins.sub? amount = some rest := by
  simp only [Affords, ← Coins.exists_sub?_iff, exists_and_left]

/-- What an account covers may be listed, since the account has been decoded. -/
theorem Affords.valid {amount : Coins} (h : c.Affords a amount) : amount.Valid := by
  obtain ⟨x, hx, hle⟩ := h
  intro e he
  refine valid_of_account? hx e fun h0 => he ?_
  have := UInt64.le_iff_toNat_le.mp (hle e)
  rw [h0] at this
  exact UInt64.toNat.inj (Nat.le_zero.mp this)

/-- Where the account of an address is stored. -/
def placeOf (a : Address) : String × Bytes := (StoreKey.accounts.name, Accounts.key a)

theorem placeOf_injective (h : placeOf a = placeOf b) : a = b :=
  Accounts.key_injective (Prod.mk.inj h).2

theorem ChangesOnly.account?_eq {places : List (String × Bytes)} {d : Context}
    (h : c.ChangesOnly places d) (ha : placeOf a ∉ places) : d.account? a = c.account? a := by
  unfold account?
  rw [h.elsewhere .accounts (Accounts.key a) ha]

end Context

open Context Exec

namespace Accounts

variable {c : Context} {n : UInt64}

theorem run_get? (h : c.ReadsAccounts) (a : Address) :
    (get? a).run.run c = (.ok (c.account? a), c) := by
  unfold get?
  rw [run_bind_ok (run_read_of_opens h.opens (key a))]
  cases hb : (c.contents .accounts).get? (key a) with
  | none =>
    unfold account?
    rw [hb]
    rfl
  | some b =>
    obtain ⟨x, hx, -⟩ := h.filed a b hb
    rw [account?_eq_some.mpr ⟨b, hb, hx⟩]
    simp only [ofBytes, hx]
    rfl

theorem run_put (h : c.Opens .accounts) (x : Account) :
    (put x).run.run c = (.ok (), c.withAccount x) := by
  unfold put
  rw [Account.toBytes_eq]
  exact run_write_of_opens h _ _

theorem run_nextNumber (h : c.Opens .accounts) (hn : c.counter = .ok n) :
    nextNumber.run.run c = (.ok n, c.withCounter (n + 1)) := by
  obtain ⟨stored, hs, rfl⟩ := map_eq_ok.mp hn
  unfold nextNumber
  rw [run_bind_ok (run_load_of_opens h hs), run_bind_ok (run_save_of_opens h _ _ _)]
  rfl

theorem run_getOrCreate (h : c.ReadsAccounts) (hn : c.counter = .ok n) (a : Address) :
    (getOrCreate a).run.run c = (.ok (c.accountFor a n), c.counted a n) := by
  unfold getOrCreate accountFor counted
  rw [run_bind_ok (run_get? h a)]
  cases c.account? a with
  | some x => rfl
  | none =>
    unfold create
    simp only
    rw [run_bind_ok (run_nextNumber h.opens hn)]
    rfl

end Accounts

/-! A context with one account. -/

namespace Context.Sample

/-- The stores of a new application. -/
def blank : Context := .new (MultiStore.openedOn ∅ .initial) ⟨"chain", 1⟩ .deliver

def holder : Address := .ofPublicKey [7]

def friend : Address := .ofPublicKey [8]

def purse : Account := .plain ⟨holder, .single "steak" 100, none, 0, 0⟩

def funded : Context := blank.withAccount purse

theorem valid_purse : purse.coins.Valid := Coins.valid_single (by decide) 100

theorem readsAccounts_funded : funded.ReadsAccounts :=
  ReadsAccounts.withAccount (c := blank) ⟨⟨_, rfl⟩, nofun⟩ valid_purse

theorem account?_holder : funded.account? holder = some purse :=
  blank.account?_withAccount_self rfl valid_purse

theorem account?_of_ne {a : Address} (h : a ≠ holder) : funded.account? a = none :=
  blank.account?_withAccount_of_ne h

/-- The one account covers what it holds. -/
theorem affords_purse {n : UInt64} (h : n ≤ 100) : funded.Affords holder (.single "steak" n) := by
  refine ⟨purse, account?_holder, fun e => ?_⟩
  change (Coins.single "steak" n).amountOf e ≤ (Coins.single "steak" 100).amountOf e
  rw [Coins.amountOf_single, Coins.amountOf_single]
  split
  · exact h
  · exact UInt64.le_refl 0

end Context.Sample
end Appchain
