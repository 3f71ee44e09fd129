import Appchain.Proofs.AppRuns
import Appchain.Proofs.Totals

/-!
# Conservation

The supply of a denomination is what accounts, collected fees and, for the stake,
bonds hold of it. Operations move coins between these, so that the supply changes
only by what packets carry in or out and by the rewards for work and answers.
-/

namespace Appchain

open Outcome

/-- What an account holds of a denomination. -/
def Account.amount (denom : String) (a : Account) : Nat := (a.coins.amountOf denom).toNat

/-- What a message takes out of the supply: the coins of a packet that leaves. -/
def Message.takesOut (denom : String) : Message → Nat
  | .transfer m => (m.packet.coins.amountOf denom).toNat
  | _ => 0

/-- What a message brings into the supply: the coins of a packet that arrives, and rewards. -/
def Message.bringsIn (denom : String) : Message → Nat
  | .receive m => (m.packet.coins.amountOf denom).toNat
  | .mine _ => if denom = "pow" then 1 else 0
  | .quiz m => if denom = m.answer then 69 else 0
  | _ => 0

namespace Transaction

def takesOut (denom : String) (t : Transaction) : Nat :=
  (t.messages.map (Message.takesOut denom)).sum

def bringsIn (denom : String) (t : Transaction) : Nat :=
  (t.messages.map (Message.bringsIn denom)).sum

end Transaction

namespace Ledger

/-- The power of all bonds, which are made of the stake alone. -/
def bonded (l : Ledger) (denom : String) : Nat :=
  if denom = "steak" then l.bonds.total fun b => b.power.toNat else 0

def collected (l : Ledger) (denom : String) : Nat := ((l.fees.getD .empty).amountOf denom).toNat

def supply (l : Ledger) (denom : String) : Nat :=
  l.accounts.total (Account.amount denom) + l.collected denom + l.bonded denom

def balance (l : Ledger) (denom : String) (a : Address) : Nat :=
  l.accounts.shareOf (Account.amount denom) a

variable {l n : Ledger} {denom : String}

theorem balance_of_get? {a : Address} {x : Account} (h : l.accounts.get? a = some x) :
    l.balance denom a = x.amount denom := by
  unfold balance OrderedMap.shareOf
  rw [h]
  rfl

theorem balance_of_none {a : Address} (h : l.accounts.get? a = none) : l.balance denom a = 0 := by
  unfold balance OrderedMap.shareOf
  rw [h]
  rfl

/-- Storing an account puts its coins in the place of those of its address. -/
theorem supply_put (l : Ledger) (denom : String) (x : Account) :
    (l.put x).supply denom + l.balance denom x.address = l.supply denom + x.amount denom := by
  have h := OrderedMap.total_insert (Account.amount denom) l.accounts x.address x
  unfold supply balance
  change (l.accounts.insert x.address x).total _ + l.collected denom + l.bonded denom + _ = _
  omega

theorem amount_withCoins (c : Coins) (x : Account) :
    (x.withCoins c).amount denom = (c.amountOf denom).toNat := by
  unfold Account.amount
  rw [Account.coins_withCoins]

variable (denom : String)

section Accounts

variable {a : Address} {amount : Coins}

theorem supply_debit (hf : AccountsFit l.accounts) (h : l.debit a amount = .ok n) :
    n.supply denom + (amount.amountOf denom).toNat = l.supply denom := by
  obtain ⟨x, rest, hx, hs, rfl⟩ := debit_eq_ok.mp h
  have hp := l.supply_put denom (x.withCoins rest)
  have hd := Coins.sub?_eq_some_iff.mp hs denom
  rw [Account.address_withCoins, (hf a x hx).address_eq, balance_of_get? hx, amount_withCoins] at hp
  unfold Account.amount at hp
  omega

/-- Creating an account leaves the others alone, and it has no coins. -/
theorem supply_getOrCreate (l : Ledger) (a : Address) :
    (l.getOrCreate a).2.supply denom = l.supply denom ∧
      (l.getOrCreate a).2.balance denom a = (l.getOrCreate a).1.amount denom := by
  unfold getOrCreate
  split
  · next x hx => exact ⟨rfl, balance_of_get? hx⟩
  · next hx => exact ⟨rfl, balance_of_none hx⟩

theorem supply_credit (hf : AccountsFit l.accounts) (h : l.credit a amount = .ok n) :
    n.supply denom = l.supply denom + (amount.amountOf denom).toNat := by
  obtain ⟨total, ht, rfl⟩ := credit_eq_ok.mp h
  obtain ⟨hs, hb⟩ := supply_getOrCreate denom l a
  have hp := (l.getOrCreate a).2.supply_put denom ((l.getOrCreate a).1.withCoins total)
  have ha := Coins.add?_eq_some_iff.mp ht denom
  rw [Account.address_withCoins, (hf.getOrCreate a).1.address_eq, hb, amount_withCoins] at hp
  unfold Account.amount at hp
  omega

theorem supply_send (hf : AccountsFit l.accounts) {source target : Address}
    (h : l.send source target amount = .ok n) : n.supply denom = l.supply denom := by
  by_cases he : source = target
  · obtain ⟨payer, -, h⟩ := send_eq_ok.mp h
    rw [if_pos he] at h
    rw [h]
  · obtain ⟨k, hd, hc⟩ := debit_credit_of_send hf he h
    have hd' := supply_debit denom hf hd
    have hc' := supply_credit denom (hf.debit hd) hc
    omega

end Accounts

theorem supply_reward (hf : AccountsFit l.accounts) {a : Address} {coin : Coin}
    (h : l.reward a coin = .ok n) :
    n.supply denom = l.supply denom + if denom = coin.denom then coin.amount.toNat else 0 := by
  obtain ⟨paid, hp, hc⟩ := reward_eq_ok.mp h
  rw [supply_credit denom hf hc, Coins.eq_single_of_ofList hp, Coins.amountOf_single]
  split <;> rfl

/-- The power of the bond of an address, where the denomination is the stake. -/
def stakeOf (l : Ledger) (denom : String) (a : Address) : Nat :=
  if denom = "steak" then l.bonds.shareOf (fun b => b.power.toNat) a else 0

theorem stakeOf_of_get? {a : Address} {b : Bond} (h : l.bonds.get? a = some b) :
    l.stakeOf denom a = if denom = "steak" then b.power.toNat else 0 := by
  unfold stakeOf OrderedMap.shareOf
  rw [h]
  rfl

theorem supply_putBond (l : Ledger) (b : Bond) :
    (l.putBond b).supply denom + l.stakeOf denom b.holder =
      l.supply denom + if denom = "steak" then b.power.toNat else 0 := by
  have h := OrderedMap.total_insert (fun b : Bond => b.power.toNat) l.bonds b.holder b
  unfold supply bonded stakeOf
  change l.accounts.total _ + l.collected denom
    + (if _ then (l.bonds.insert b.holder b).total _ else 0) + _ = _
  split <;> omega

theorem supply_eraseBond (l : Ledger) (a : Address) :
    supply { l with bonds := l.bonds.erase a } denom + l.stakeOf denom a = l.supply denom := by
  have h := OrderedMap.total_erase (fun b : Bond => b.power.toNat) l.bonds a
  unfold supply bonded stakeOf
  change l.accounts.total _ + l.collected denom + (if _ then (l.bonds.erase a).total _ else 0) + _ = _
  split <;> omega

theorem supply_addFee {fee : Coins} (h : l.addFee fee = .ok n) :
    n.supply denom = l.supply denom + (fee.amountOf denom).toNat := by
  obtain ⟨total, ht, rfl⟩ := addFee_eq_ok.mp h
  have ha := Coins.add?_eq_some_iff.mp ht denom
  unfold supply collected bonded
  simp only [Option.getD_some]
  omega

section WellFormed

variable (hl : l.WellFormed)
include hl

/-- Stake that is bonded is added to the power of the bond. -/
theorem supply_bond {m : BondStake} (h : l.bond m = .ok n) : n.supply denom = l.supply denom := by
  obtain ⟨-, k, power, hk, hp, hn⟩ := bond_eq_ok.mp h
  have hd := supply_debit denom hl.accounts hk
  have hb := supply_putBond denom k { k.bondOf m with power }
  rw [← hn] at hb
  have hsum := Word.add?_eq_some_iff.mp hp
  have hold : k.stakeOf denom m.holder = if denom = "steak" then (k.bondOf m).power.toNat else 0 := by
    unfold bondOf
    cases hg : k.bonds.get? m.holder with
    | none =>
      unfold stakeOf OrderedMap.shareOf
      rw [hg]
      rfl
    | some b => exact stakeOf_of_get? denom hg
  rw [Coins.amountOf_single, show Staking.denom = "steak" from rfl] at hd
  rw [show ({ k.bondOf m with power } : Bond).holder = m.holder from (hl.debit hk).holder_bondOf m,
    hold] at hb
  by_cases hs : denom = "steak"
  · simp only [if_pos hs] at hd hb
    omega
  · simp only [if_neg hs, UInt64.toNat_zero] at hd hb
    omega

/-- The power of a bond that is given up is paid back. -/
theorem supply_unbond {a : Address} (h : l.unbond a = .ok n) : n.supply denom = l.supply denom := by
  obtain ⟨b, hb, hc⟩ := unbond_eq_ok.mp h
  have he := supply_eraseBond denom l a
  have hc := supply_credit denom (hl.eraseBond a).accounts hc
  rw [Coins.amountOf_single, show Staking.denom = "steak" from rfl] at hc
  rw [stakeOf_of_get? denom hb] at he
  by_cases hs : denom = "steak"
  · simp only [if_pos hs] at hc he
    omega
  · simp only [if_neg hs, UInt64.toNat_zero] at hc he
    omega

/-- What a delivered message takes out of the supply and brings into it. -/
theorem supply_apply {m : Message} (h : l.apply .deliver m = .ok n) :
    n.supply denom + m.takesOut denom = l.supply denom + m.bringsIn denom := by
  cases m with
  | send m => exact supply_send denom hl.accounts h
  | transfer m =>
    obtain ⟨k, hk, rfl⟩ := transfer_eq_ok.mp h
    have hs : k.supply denom + _ = _ := supply_debit denom hl.accounts hk
    exact hs
  | receive m =>
    obtain ⟨-, k, hk, rfl⟩ := receive_eq_ok.mp h
    have hs : k.supply denom = _ := supply_credit denom hl.accounts hk
    exact hs
  | bond m => exact supply_bond denom hl h
  | unbond m => exact supply_unbond denom hl h
  | mine m =>
    obtain ⟨w, k, -, hk, rfl⟩ := mine_eq_ok.mp h
    exact supply_reward denom hl.accounts hk
  | setTrend m =>
    cases h
    rfl
  | quiz m =>
    obtain ⟨-, h⟩ := quiz_eq_ok.mp h
    exact supply_reward denom hl.accounts h

theorem supply_authorize {signer : Address} {g : Signature} (h : l.authorize signer g = .ok n) :
    n.supply denom = l.supply denom := by
  obtain ⟨x, y, hx, hy, rfl⟩ := authorize_eq_ok.mp h
  have hp := l.supply_put denom y
  have hfit := hl.accounts signer x hx
  rw [(Admission.fitsUnder_signed hfit hy).address_eq, balance_of_get? hx] at hp
  unfold Account.amount at hp
  rw [Admission.coins_signed hy] at hp
  omega

/-- A fee moves from an account to the collected fees. -/
theorem supply_charge {payer : Address} {fee : Coins} (h : l.charge payer fee = .ok n) :
    n.supply denom = l.supply denom := by
  have h := charge_eq_ok.mp h
  split at h
  · rw [h]
  · obtain ⟨k, hk, hn⟩ := h
    have hd := supply_debit denom hl.accounts hk
    have ha := supply_addFee denom hn
    omega

theorem supply_screen {t : Transaction} (h : l.screen t = .ok n) :
    n.supply denom = l.supply denom := by
  have hs : n.WellFormed ∧ n.supply denom = l.supply denom := by
    apply screen_preserves (P := fun k => k.WellFormed ∧ k.supply denom = l.supply denom) h _ _ ⟨hl, rfl⟩
    · rintro k k' signer g ⟨hk, he⟩ ha
      exact ⟨hk.authorize ha, (supply_authorize denom hk ha).trans he⟩
    · rintro k k' payer fee ⟨hk, he⟩ hc
      exact ⟨hk.charge hc, (supply_charge denom hk hc).trans he⟩
  exact hs.2

/-- The messages of a transaction change the supply one after another. -/
theorem supply_foldlM {ms : List Message} (hc : ∀ m ∈ ms, m.check = .ok ())
    (h : ms.foldlM (fun l m => l.apply .deliver m) l = .ok n) :
    n.supply denom + (ms.map (Message.takesOut denom)).sum =
      l.supply denom + (ms.map (Message.bringsIn denom)).sum := by
  induction ms generalizing l with
  | nil =>
    cases h
    rfl
  | cons m ms ih =>
    rw [List.foldlM_cons] at h
    obtain ⟨k, hk, hn⟩ := bind_eq_ok.mp h
    have hm := supply_apply denom hl hk
    have hi := ih (hl.apply (hc m (List.mem_cons_self ..)) hk)
      (fun x hx => hc x (List.mem_cons_of_mem m hx)) hn
    rw [List.map_cons, List.sum_cons, List.map_cons, List.sum_cons]
    omega

theorem supply_execute {t : Transaction} (h : l.execute .deliver t = .ok n) :
    n.supply denom + t.takesOut denom = l.supply denom + t.bringsIn denom := by
  obtain ⟨hc, k, hk, hn⟩ := execute_eq_ok.mp h
  have ha := supply_screen denom hl hk
  have hm := supply_foldlM denom (hl.screen hk) (Transaction.messages_of_check hc) hn
  rw [ha] at hm
  exact hm

end WellFormed
end Ledger

/-- The supply of a denomination as the stores are read. -/
def readSupply (denom : String) : Exec Nat := do
  let accounts ← Accounts.all
  let fees ← Fees.collected
  let bonds ← Staking.all
  return (accounts.map (Account.amount denom)).sum + (fees.amountOf denom).toNat +
    if denom = "steak" then (bonds.map fun b => b.power.toNat).sum else 0

theorem reads_supply {s : MultiStore} {mode : Mode} {l : Ledger} (denom : String) :
    Reads s mode (readSupply denom) l (.ok (l.supply denom)) := by
  unfold readSupply
  apply Accounts.reads_all.bind (g := fun _ => .ok _)
  intro as ha
  cases ha
  apply Fees.reads_collected.bind (g := fun _ => .ok _)
  intro fees hf
  cases hf
  apply Staking.reads_all.bind (g := fun _ => .ok _)
  intro bs hb
  cases hb
  rw [List.map_map, List.map_map]
  exact .pure _

namespace App

def supply (a : App) (denom : String) : Except TxError Nat := a.read (readSupply denom)

theorem Holds.supply_eq {a : App} {l : Ledger} (h : a.Holds l) (denom : String) :
    a.supply denom = .ok (l.supply denom) := h.read_eq (reads_supply denom)

/-- What happens to the supply with an event: an accepted transaction takes the coins of its
packets out and brings coins in, and nothing else changes it. -/
theorem Run.supply_perform {g : Genesis} {ts : List Transaction} {a : App} {e : Event}
    (h : Run g ts a) (hv : e.commits = true → a.lastCommit.version ≠ Word.maximum)
    (denom : String) :
    ∃ b before after, a.perform e = .ok b ∧ a.supply denom = .ok before ∧
      b.supply denom = .ok after ∧
      after + ((a.accepted e).map (Transaction.takesOut denom)).getD 0 =
        before + ((a.accepted e).map (Transaction.bringsIn denom)).getD 0 := by
  obtain ⟨start, l, -, -, hh, hl⟩ := h.holds
  obtain ⟨b, n, hb, hn, he⟩ := hh.perform hl hv
  refine ⟨b, l.supply denom, n.supply denom, hb, hh.supply_eq denom, hn.supply_eq denom, ?_⟩
  cases ht : a.accepted e with
  | none =>
    rw [ht] at he
    cases he
    rfl
  | some t =>
    rw [ht] at he
    obtain ⟨k, hk, hkn⟩ := bind_eq_ok.mp he
    cases hkn
    exact Ledger.supply_execute denom hl hk

/-- A right answer brings sixty-nine coins into the supply. -/
theorem Run.supply_perform_answer :
    ∃ a b before after, Run Sample.genesis [] a ∧ a.perform (.deliver Sample.answerText) = .ok b ∧
      a.supply "icecold" = .ok before ∧ b.supply "icecold" = .ok after ∧ after = before + 69 := by
  obtain ⟨a, b, ha, hacc, hp, -⟩ := Sample.run
  obtain ⟨c, before, after, hc, hb, hn, h⟩ :=
    Run.supply_perform ha (e := .deliver Sample.answerText) (fun h => by cases h) "icecold"
  rw [hp] at hc
  cases hc
  rw [hacc] at h
  exact ⟨a, b, before, after, ha, hp, hb, hn, h⟩

end App
end Appchain
