import Appchain.Proofs.WellFormed

/-!
# Movements

What messages do to accounts and bonds is made of a few movements: those who sign
pay and change their bonds, anybody may be paid, and whoever is paid without an
account gets a new one. Whatever every movement leaves alone, every message does.
-/

namespace Appchain

namespace Account

/-- The display name, if the account has one. -/
def name : Account → Option String
  | plain _ => none
  | named n => some n.name

@[simp] theorem name_modify (f : BaseAccount → BaseAccount) (x : Account) :
    (x.modify f).name = x.name := by cases x <;> rfl

@[simp] theorem name_withCoins (c : Coins) (x : Account) : (x.withCoins c).name = x.name := by
  simp [withCoins]

@[simp] theorem number_withCoins (c : Coins) (x : Account) :
    (x.withCoins c).number = x.number := by simp [withCoins, number]

@[simp] theorem sequence_withCoins (c : Coins) (x : Account) :
    (x.withCoins c).sequence = x.sequence := by simp [withCoins, sequence]

theorem withCoins_withCoins (c d : Coins) (x : Account) :
    (x.withCoins c).withCoins d = x.withCoins d := by cases x <;> rfl

theorem withCoins_coins (x : Account) : x.withCoins x.coins = x := by cases x <;> rfl

end Account

namespace Ledger

open Outcome

variable {l k n : Ledger} {who : List Address} {a : Address} {amount : Coins}

/-- Movements of coins and bonds, for which only those in `who` can be made to pay. -/
inductive Moves (who : List Address) : Ledger → Ledger → Prop
  | same {l n : Ledger} : n.accounts = l.accounts → n.bonds = l.bonds → Moves who l n
  | pay {l n : Ledger} {a : Address} {x : Account} {c : Coins} : a ∈ who →
      l.accounts.get? a = some x → n.accounts = l.accounts.insert a (x.withCoins c) →
      n.bonds = l.bonds → Moves who l n
  | gain {l n : Ledger} {a : Address} {x : Account} {c : Coins} :
      l.accounts.get? a = some x → (∀ d, x.coins.amountOf d ≤ c.amountOf d) →
      n.accounts = l.accounts.insert a (x.withCoins c) → n.bonds = l.bonds → Moves who l n
  | create {l n : Ledger} {a : Address} {number : UInt64} {c : Coins} :
      l.accounts.get? a = none →
      n.accounts = l.accounts.insert a (((Account.new a).withNumber number).withCoins c) →
      n.bonds = l.bonds → Moves who l n
  | rebond {l n : Ledger} {a : Address} : a ∈ who → n.accounts = l.accounts →
      (∀ b, b ≠ a → n.bonds.get? b = l.bonds.get? b) → Moves who l n
  | trans {l k n : Ledger} : Moves who l k → Moves who k n → Moves who l n

namespace Moves

theorem refl (l : Ledger) : Moves who l l := .same rfl rfl

theorem debit (hf : AccountsFit l.accounts) (ha : a ∈ who) (h : l.debit a amount = .ok n) :
    Moves who l n := by
  obtain ⟨x, rest, hx, -, rfl⟩ := debit_eq_ok.mp h
  refine .pay (c := rest) ha hx ?_ rfl
  unfold put
  rw [Account.address_withCoins, (hf a x hx).address_eq]

/-- Coins come on top of what an account has, or on a new account. -/
theorem credit (hf : AccountsFit l.accounts) (h : l.credit a amount = .ok n) : Moves who l n := by
  obtain ⟨total, ht, rfl⟩ := credit_eq_ok.mp h
  have hsum := Coins.add?_eq_some_iff.mp ht
  cases hx : l.accounts.get? a with
  | none =>
    have hc : l.getOrCreate a = l.create a := by
      unfold getOrCreate
      rw [hx]
    rw [hc]
    exact .create hx rfl rfl
  | some x =>
    have hc : l.getOrCreate a = (x, l) := by
      unfold getOrCreate
      rw [hx]
    rw [hc] at hsum ⊢
    refine .gain (c := total) hx (fun d => ?_) ?_ rfl
    · rw [UInt64.le_iff_toNat_le]
      have hd : (x.coins.amountOf d).toNat + _ = _ := hsum d
      omega
    · unfold put
      rw [Account.address_withCoins, (hf a x hx).address_eq]

theorem reward (hf : AccountsFit l.accounts) {coin : Coin} (h : l.reward a coin = .ok n) :
    Moves who l n := by
  obtain ⟨paid, -, hc⟩ := reward_eq_ok.mp h
  exact .credit hf hc

theorem send (hf : AccountsFit l.accounts) {target : Address} (ha : a ∈ who)
    (h : l.send a target amount = .ok n) : Moves who l n := by
  by_cases he : a = target
  · obtain ⟨payer, -, h⟩ := send_eq_ok.mp h
    rw [if_pos he] at h
    rw [h]
    exact .refl l
  · obtain ⟨k, hd, hc⟩ := debit_credit_of_send hf he h
    exact (debit hf ha hd).trans (credit (hf.debit hd) hc)

theorem bond (hl : l.WellFormed) {m : BondStake} (hm : m.holder ∈ who) (h : l.bond m = .ok n) :
    Moves who l n := by
  obtain ⟨-, k, power, hk, -, rfl⟩ := bond_eq_ok.mp h
  have hb : ({ k.bondOf m with power } : Bond).holder = m.holder := (hl.debit hk).holder_bondOf m
  refine (debit hl.accounts hm hk).trans (.rebond hm rfl fun b hne => ?_)
  unfold putBond
  rw [hb, OrderedMap.get?_insert, if_neg hne]

theorem unbond (hf : AccountsFit l.accounts) (ha : a ∈ who) (h : l.unbond a = .ok n) :
    Moves who l n := by
  obtain ⟨b, -, hc⟩ := unbond_eq_ok.mp h
  have he : Moves who l { l with bonds := l.bonds.erase a } :=
    .rebond ha rfl fun b hne => by rw [OrderedMap.get?_erase, if_neg hne]
  have hg : Moves who { l with bonds := l.bonds.erase a } n := credit hf hc
  exact he.trans hg

/-- A message makes nobody pay but its signer. -/
theorem apply (hl : l.WellFormed) {mode : Mode} {m : Message} (hm : m.signer ∈ who)
    (h : l.apply mode m = .ok n) : Moves who l n := by
  cases m with
  | send m => exact send hl.accounts hm h
  | transfer m =>
    obtain ⟨k, hk, rfl⟩ := transfer_eq_ok.mp h
    exact (debit hl.accounts hm hk).trans (.same rfl rfl)
  | receive m =>
    obtain ⟨-, k, hk, rfl⟩ := receive_eq_ok.mp h
    exact (credit hl.accounts hk).trans (.same rfl rfl)
  | bond m => exact bond hl hm h
  | unbond m => exact unbond hl.accounts hm h
  | mine m =>
    obtain ⟨w, k, -, hk, rfl⟩ := mine_eq_ok.mp h
    exact (reward hl.accounts hk).trans (.same rfl rfl)
  | setTrend m =>
    cases h
    exact .same rfl rfl
  | quiz m =>
    obtain ⟨-, h⟩ := quiz_eq_ok.mp h
    split at h
    · rw [h]
      exact .refl l
    · exact reward hl.accounts h

theorem foldlM_apply (hl : l.WellFormed) {mode : Mode} {ms : List Message}
    (hc : ∀ m ∈ ms, m.check = .ok ()) (hs : ∀ m ∈ ms, m.signer ∈ who)
    (h : ms.foldlM (fun l m => l.apply mode m) l = .ok n) : Moves who l n := by
  have hn : n.WellFormed ∧ Moves who l n := by
    refine foldlM_preserves (P := fun k => k.WellFormed ∧ Moves who l k) (fun m hm k k' hk ha => ?_)
      ⟨hl, .refl l⟩ h
    exact ⟨hk.1.apply (hc m hm) ha, hk.2.trans (apply hk.1 (hs m hm) ha)⟩
  exact hn.2

theorem charge (hf : AccountsFit l.accounts) {payer : Address} {fee : Coins} (hp : payer ∈ who)
    (h : l.charge payer fee = .ok n) : Moves who l n := by
  have h := charge_eq_ok.mp h
  split at h
  · rw [h]
    exact .refl l
  · obtain ⟨k, hk, hn⟩ := h
    obtain ⟨total, -, rfl⟩ := addFee_eq_ok.mp hn
    exact (debit hf hp hk).trans (.same rfl rfl)

end Moves

/-- What an address has is kept: its account, with no less of any coin, and its bond. -/
structure Spares (a : Address) (l n : Ledger) : Prop where
  account : ∀ x, l.accounts.get? a = some x → ∃ c, n.accounts.get? a = some (x.withCoins c) ∧
    ∀ d, x.coins.amountOf d ≤ c.amountOf d
  bond : n.bonds.get? a = l.bonds.get? a

theorem Spares.of_same (ha : n.accounts.get? a = l.accounts.get? a)
    (hb : n.bonds.get? a = l.bonds.get? a) : Spares a l n where
  account x hx := ⟨x.coins, by rw [ha, hx, x.withCoins_coins], fun _ => UInt64.le_refl _⟩
  bond := hb

theorem Spares.trans (h : Spares a l k) (h' : Spares a k n) : Spares a l n where
  account x hx := by
    obtain ⟨c, hc, hle⟩ := h.account x hx
    obtain ⟨d, hd, hle'⟩ := h'.account _ hc
    rw [Account.coins_withCoins] at hle'
    exact ⟨d, by rw [hd, Account.withCoins_withCoins], fun e => UInt64.le_trans (hle e) (hle' e)⟩
  bond := h'.bond.trans h.bond

/-- Storing the account of one address leaves the account of another alone. -/
theorem get?_accounts_of_ne {b : Address} {y : Account} (hn : n.accounts = l.accounts.insert b y)
    (hne : a ≠ b) : n.accounts.get? a = l.accounts.get? a := by
  rw [hn, OrderedMap.get?_insert, if_neg hne]

/-- Movements take nothing from anybody who cannot be made to pay. -/
theorem Moves.spares (h : Moves who l n) (ha : a ∉ who) : Spares a l n := by
  induction h with
  | same hn hb => exact .of_same (by rw [hn]) (by rw [hb])
  | pay hp _ hn hb =>
    refine .of_same (get?_accounts_of_ne hn ?_) (by rw [hb])
    rintro rfl
    exact ha hp
  | @gain l n b x c hx hle hn hb =>
    by_cases he : a = b
    · subst he
      refine ⟨fun y hy => ⟨c, ?_, ?_⟩, by rw [hb]⟩
      · rw [hx] at hy
        cases hy
        rw [hn, OrderedMap.get?_insert, if_pos rfl]
      · rw [hx] at hy
        cases hy
        exact hle
    · exact .of_same (get?_accounts_of_ne hn he) (by rw [hb])
  | @create l n b _ _ hx hn hb =>
    by_cases he : a = b
    · subst he
      refine ⟨fun z hz => ?_, by rw [hb]⟩
      rw [hx] at hz
      cases hz
    · exact .of_same (get?_accounts_of_ne hn he) (by rw [hb])
  | rebond hp hn hb =>
    refine .of_same (by rw [hn]) (hb a ?_)
    rintro rfl
    exact ha hp
  | trans _ _ ih ih' => exact ih.trans ih'

/-- Accounts change in their coins only, and new ones have a number and coins, and nothing else. -/
structure Settles (l n : Ledger) : Prop where
  kept : ∀ a x, l.accounts.get? a = some x → ∃ c, n.accounts.get? a = some (x.withCoins c)
  new : ∀ a y, l.accounts.get? a = none → n.accounts.get? a = some y →
    ∃ number c, y = ((Account.new a).withNumber number).withCoins c

theorem Settles.of_accounts (h : n.accounts = l.accounts) : Settles l n where
  kept a x hx := ⟨x.coins, by rw [h, hx, x.withCoins_coins]⟩
  new a y hx hy := by
    rw [h, hx] at hy
    cases hy

theorem Settles.of_withCoins {x : Account} {c : Coins} (hx : l.accounts.get? a = some x)
    (hn : n.accounts = l.accounts.insert a (x.withCoins c)) : Settles l n where
  kept b y hy := by
    by_cases he : b = a
    · subst he
      rw [hx] at hy
      cases hy
      exact ⟨c, by rw [hn, OrderedMap.get?_insert, if_pos rfl]⟩
    · exact ⟨y.coins, by rw [get?_accounts_of_ne hn he, hy, y.withCoins_coins]⟩
  new b y hb hy := by
    by_cases he : b = a
    · subst he
      rw [hx] at hb
      cases hb
    · rw [get?_accounts_of_ne hn he, hb] at hy
      cases hy

theorem Settles.of_new {number : UInt64} {c : Coins} (hx : l.accounts.get? a = none)
    (hn : n.accounts = l.accounts.insert a (((Account.new a).withNumber number).withCoins c)) :
    Settles l n where
  kept b z hz := by
    refine ⟨z.coins, ?_⟩
    have he : b ≠ a := by
      rintro rfl
      rw [hx] at hz
      cases hz
    rw [get?_accounts_of_ne hn he, hz, z.withCoins_coins]
  new b z hb hz := by
    by_cases he : b = a
    · rw [hn, OrderedMap.get?_insert, if_pos he] at hz
      cases hz
      rw [he]
      exact ⟨number, c, rfl⟩
    · rw [get?_accounts_of_ne hn he, hb] at hz
      cases hz

theorem Settles.trans (h : Settles l k) (h' : Settles k n) : Settles l n where
  kept a x hx := by
    obtain ⟨c, hc⟩ := h.kept a x hx
    obtain ⟨d, hd⟩ := h'.kept a _ hc
    exact ⟨d, by rw [hd, Account.withCoins_withCoins]⟩
  new a y hx hy := by
    cases hk : k.accounts.get? a with
    | none => exact h'.new a y hk hy
    | some z =>
      obtain ⟨c, hc⟩ := h'.kept a z hk
      rw [hy] at hc
      cases hc
      obtain ⟨number, d, rfl⟩ := h.new a z hx hk
      exact ⟨number, c, Account.withCoins_withCoins ..⟩

theorem Moves.settles (h : Moves who l n) : Settles l n := by
  induction h with
  | same hn _ => exact .of_accounts hn
  | pay _ hx hn _ => exact .of_withCoins hx hn
  | gain hx _ hn _ => exact .of_withCoins hx hn
  | create hx hn _ => exact .of_new hx hn
  | rebond _ hn _ => exact .of_accounts hn
  | trans _ _ ih ih' => exact ih.trans ih'

end Ledger
end Appchain
