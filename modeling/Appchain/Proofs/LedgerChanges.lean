import Appchain.Proofs.LedgerGenesis
import Appchain.Proofs.Outcomes

/-!
# What operations change

Each successful operation is described by what has become of the ledger. Most
operations touch accounts only, or one more part besides; `credit_frame` and its
like say so by giving the ledger up to the parts that may differ.
-/

namespace Appchain.Ledger

open Outcome

variable {l n : Ledger}

theorem paying_eq_ok {a : Address} {amount : Coins} {y : Account} :
    l.paying a amount = .ok y ↔ ∃ x rest, l.accounts.get? a = some x ∧
      x.coins.sub? amount = some rest ∧ y = x.withCoins rest := by
  unfold paying
  cases l.accounts.get? a with
  | none => simp
  | some x =>
    simp only [Option.some.injEq]
    cases hs : x.coins.sub? amount with
    | none => simp [hs]
    | some rest =>
      constructor
      · intro h
        cases h
        exact ⟨x, rest, rfl, hs, rfl⟩
      · rintro ⟨x', rest', rfl, hs', rfl⟩
        rw [hs] at hs'
        cases hs'
        rfl

theorem receiving_eq_ok {a : Address} {amount : Coins} {r : Account × Ledger} :
    l.receiving a amount = .ok r ↔ ∃ total, (l.getOrCreate a).1.coins.add? amount = some total ∧
      r = ((l.getOrCreate a).1.withCoins total, (l.getOrCreate a).2) := by
  unfold receiving
  cases (l.getOrCreate a).1.coins.add? amount with
  | none => simp
  | some total => simp [eq_comm]

theorem debit_eq_ok {a : Address} {amount : Coins} :
    l.debit a amount = .ok n ↔ ∃ x rest, l.accounts.get? a = some x ∧
      x.coins.sub? amount = some rest ∧ n = l.put (x.withCoins rest) := by
  unfold debit
  rw [map_eq_ok]
  constructor
  · rintro ⟨y, hy, rfl⟩
    obtain ⟨x, rest, hx, hs, rfl⟩ := paying_eq_ok.mp hy
    exact ⟨x, rest, hx, hs, rfl⟩
  · rintro ⟨x, rest, hx, hs, rfl⟩
    exact ⟨_, paying_eq_ok.mpr ⟨x, rest, hx, hs, rfl⟩, rfl⟩

theorem credit_eq_ok {a : Address} {amount : Coins} :
    l.credit a amount = .ok n ↔ ∃ total, (l.getOrCreate a).1.coins.add? amount = some total ∧
      n = (l.getOrCreate a).2.put ((l.getOrCreate a).1.withCoins total) := by
  unfold credit
  rw [map_eq_ok]
  constructor
  · rintro ⟨r, hr, rfl⟩
    obtain ⟨total, ht, rfl⟩ := receiving_eq_ok.mp hr
    exact ⟨total, ht, rfl⟩
  · rintro ⟨total, ht, rfl⟩
    exact ⟨_, receiving_eq_ok.mpr ⟨total, ht, rfl⟩, rfl⟩

/-- Two ledgers that differ in their accounts at most. -/
def SameButAccounts (l n : Ledger) : Prop :=
  n = { l with accounts := n.accounts, counter := n.counter }

theorem SameButAccounts.refl (l : Ledger) : SameButAccounts l l := rfl

theorem SameButAccounts.trans {k : Ledger} (h : SameButAccounts l n) (h' : SameButAccounts n k) :
    SameButAccounts l k := by
  unfold SameButAccounts at h h' ⊢
  rw [h', h]

theorem put_frame (l : Ledger) (x : Account) : SameButAccounts l (l.put x) := rfl

theorem getOrCreate_frame (l : Ledger) (a : Address) : SameButAccounts l (l.getOrCreate a).2 := by
  unfold getOrCreate
  split <;> rfl

theorem debit_frame {a : Address} {amount : Coins} (h : l.debit a amount = .ok n) :
    SameButAccounts l n := by
  obtain ⟨x, rest, -, -, rfl⟩ := debit_eq_ok.mp h
  exact put_frame l _

theorem credit_frame {a : Address} {amount : Coins} (h : l.credit a amount = .ok n) :
    SameButAccounts l n := by
  obtain ⟨total, -, rfl⟩ := credit_eq_ok.mp h
  exact (getOrCreate_frame l a).trans (put_frame _ _)

theorem reward_eq_ok {a : Address} {coin : Coin} :
    l.reward a coin = .ok n ↔
      ∃ paid, Coins.ofList [coin] = .ok paid ∧ l.credit a paid = .ok n := by
  unfold reward
  rw [bind_eq_ok]
  simp only [mapError_eq_ok]

theorem send_eq_ok {source target : Address} {amount : Coins} :
    l.send source target amount = .ok n ↔
      ∃ payer, l.paying source amount = .ok payer ∧
        if source = target then n = l
        else ∃ r, l.receiving target amount = .ok r ∧ n = (r.2.put payer).put r.1 := by
  unfold send
  rw [bind_eq_ok]
  apply exists_congr
  intro payer
  apply and_congr_right
  intro _
  split
  · exact pure_eq_ok
  · simp only [bind_eq_ok, pure_eq_ok]

theorem transfer_eq_ok {m : Transfer} :
    l.transfer m = .ok n ↔
      ∃ k, l.debit m.packet.sender m.packet.coins = .ok k ∧ n = k.post m.packet := by
  unfold transfer
  simp only [bind_eq_ok, pure_eq_ok]

theorem receive_eq_ok {m : Receive} :
    l.receive m = .ok n ↔ m.sequence = l.nextSequence m.packet.source ∧
      ∃ k, l.credit m.packet.recipient m.packet.coins = .ok k ∧
        n = k.setSequence m.packet.source (m.sequence + 1) := by
  unfold receive
  rw [guard_eq_ok, Classical.not_not]
  apply and_congr_right
  intro h
  simp only [bind_eq_ok, pure_eq_ok, h]

theorem addStake_eq_ok {m : BondStake} :
    l.addStake m = .ok n ↔ ∃ power, Word.add? (l.bondOf m).power m.stake.amount = some power ∧
      n = l.putBond { l.bondOf m with power } := by
  unfold addStake
  cases Word.add? (l.bondOf m).power m.stake.amount with
  | none => simp
  | some power => simp [eq_comm]

theorem bond_eq_ok {m : BondStake} :
    l.bond m = .ok n ↔ m.stake.denom = Staking.denom ∧
      ∃ k power, l.debit m.holder (.single Staking.denom m.stake.amount) = .ok k ∧
        Word.add? (k.bondOf m).power m.stake.amount = some power ∧
        n = k.putBond { k.bondOf m with power } := by
  unfold bond
  rw [guard_eq_ok, Classical.not_not]
  simp only [bind_eq_ok, addStake_eq_ok, exists_and_left]

theorem unbond_eq_ok {a : Address} :
    l.unbond a = .ok n ↔ ∃ b, l.bonds.get? a = some b ∧
      credit { l with bonds := l.bonds.erase a } a (.single Staking.denom b.power) = .ok n := by
  unfold unbond
  cases l.bonds.get? a with
  | none => simp
  | some b => simp

theorem require_eq_ok {name : String} {stored : Option UInt64} {w : UInt64} :
    require name stored = .ok w ↔ stored = some w := by
  cases stored with
  | none => simp [require]
  | some n => simp [require]

theorem nextWork_eq_ok {c w : Mining.State} :
    l.nextWork c = .ok w ↔ ∃ difficulty count, l.difficulty = some difficulty ∧
      l.count = some count ∧ w = ⟨Word.succ difficulty, Word.succ count⟩ ∧ c = w := by
  unfold nextWork
  simp only [bind_eq_ok, require_eq_ok, guard_eq_ok, pure_eq_ok, Classical.not_not]
  constructor
  · rintro ⟨difficulty, hd, count, hc, hcount, hdifficulty, rfl⟩
    refine ⟨difficulty, count, hd, hc, rfl, ?_⟩
    rw [← hcount, ← hdifficulty]
  · rintro ⟨difficulty, count, hd, hc, rfl, rfl⟩
    exact ⟨difficulty, hd, count, hc, rfl, rfl, rfl⟩

theorem mine_eq_ok {m : Mine} :
    l.mine m = .ok n ↔ ∃ w k, l.nextWork ⟨m.difficulty, m.count⟩ = .ok w ∧
      l.reward m.sender Mining.reward = .ok k ∧ n = k.setWork w := by
  unfold mine
  simp only [bind_eq_ok, pure_eq_ok]
  constructor
  · rintro ⟨w, hw, k, hk, rfl⟩
    exact ⟨w, k, hw, hk, rfl⟩
  · rintro ⟨w, k, hw, hk, rfl⟩
    exact ⟨w, hw, k, hk, rfl⟩

theorem quiz_eq_ok {mode : Mode} {m : Quiz} :
    l.quiz mode m = .ok n ↔ l.trend.getD "" = m.answer ∧
      if mode = .check then n = l else l.reward m.sender ⟨m.answer, Trend.reward⟩ = .ok n := by
  unfold quiz
  split
  · next h =>
    split <;> simp [h, eq_comm]
  · next h => simp [h]

theorem account_eq_ok {a : Address} {x : Account} :
    l.account a = .ok x ↔ l.accounts.get? a = some x := by
  unfold account
  cases l.accounts.get? a with
  | none => simp
  | some y => simp

theorem authorize_eq_ok {signer : Address} {g : Signature} :
    l.authorize signer g = .ok n ↔ ∃ x y, l.accounts.get? signer = some x ∧
      Admission.signed x signer g = .ok y ∧ n = l.put y := by
  unfold authorize
  simp only [bind_eq_ok, account_eq_ok, pure_eq_ok]
  constructor
  · rintro ⟨x, hx, y, hy, rfl⟩
    exact ⟨x, y, hx, hy, rfl⟩
  · rintro ⟨x, y, hx, hy, rfl⟩
    exact ⟨x, hx, y, hy, rfl⟩

theorem addFee_eq_ok {fee : Coins} :
    l.addFee fee = .ok n ↔
      ∃ total, (l.fees.getD .empty).add? fee = some total ∧ n = { l with fees := some total } := by
  unfold addFee
  cases (l.fees.getD .empty).add? fee with
  | none => simp
  | some total => simp [eq_comm]

/-- A fee that is charged is taken from an account and added to the fees. -/
theorem charge_eq_ok {payer : Address} {fee : Coins} :
    l.charge payer fee = .ok n ↔
      if fee.isEmpty then n = l else ∃ k, l.debit payer fee = .ok k ∧ k.addFee fee = .ok n := by
  unfold charge
  split
  · exact pure_eq_ok
  · rw [bind_eq_ok]
    simp only [account_eq_ok]
    constructor
    · rintro ⟨x, hx, h⟩
      split at h
      · cases h
      · next rest hs => exact ⟨_, debit_eq_ok.mpr ⟨x, rest, hx, hs, rfl⟩, h⟩
    · rintro ⟨k, hk, h⟩
      obtain ⟨x, rest, hx, hs, rfl⟩ := debit_eq_ok.mp hk
      exact ⟨x, hx, by rw [hs]; exact h⟩

/-- A transaction that passes keeps to the limits, is authorized by its signers and pays its fee. -/
theorem screen_eq_ok {t : Transaction} :
    l.screen t = .ok n ↔ Admission.checkLimits l.parameters t = .ok () ∧
      ∃ k, (t.signers.zip t.signatures).foldlM (fun l e => l.authorize e.1 e.2) l = .ok k ∧
        match t.signers.head? with
        | some payer => k.charge payer t.fee.amount = .ok n
        | none => n = k := by
  unfold screen
  rw [check_bind_eq_ok]
  cases t.signers.head? with
  | some payer => simp only [bind_eq_ok]
  | none => simp only [bind_eq_ok, pure_eq_ok]

/-- What signing and paying fees preserve holds after screening. -/
theorem screen_preserves {P : Ledger → Prop} {t : Transaction} (h : l.screen t = .ok n)
    (authorize : ∀ k k' signer g, P k → k.authorize signer g = .ok k' → P k')
    (charge : ∀ k k' payer fee, P k → k.charge payer fee = .ok k' → P k') (hl : P l) : P n := by
  obtain ⟨-, k, hk, hn⟩ := screen_eq_ok.mp h
  have hp : P k := foldlM_preserves (fun e _ a b ha hb => authorize a b e.1 e.2 ha hb) hl hk
  split at hn
  · exact charge k n _ _ hp hn
  · rw [hn]
    exact hp

/-- What a message does besides moving coins between accounts. -/
def Records : Message → Ledger → Ledger → Prop
  | .transfer m, l, n => n = l.post m.packet
  | .receive m, l, n => m.sequence = l.nextSequence m.packet.source ∧
      n = l.setSequence m.packet.source (m.sequence + 1)
  | .bond m, l, n => ∃ power, Word.add? (l.bondOf m).power m.stake.amount = some power ∧
      n = l.putBond { l.bondOf m with power }
  | .unbond m, l, n => n = { l with bonds := l.bonds.erase m.holder }
  | .mine m, l, n => n = l.setWork ⟨m.difficulty, m.count⟩
  | .setTrend m, l, n => n = l.setTrend m.trend
  | .send _, l, n | .quiz _, l, n => n = l

theorem nextSequence_of_frame (h : SameButAccounts l n) (chain : String) :
    n.nextSequence chain = l.nextSequence chain := by
  rw [h]
  rfl

/-- A message moves coins between accounts and records one thing at most. -/
theorem exists_records {mode : Mode} {m : Message} (h : l.apply mode m = .ok n) :
    ∃ k, SameButAccounts l k ∧ Records m k n := by
  cases m with
  | send m =>
    obtain ⟨payer, -, h⟩ := send_eq_ok.mp h
    split at h
    · rw [h]
      exact ⟨l, .refl l, rfl⟩
    · obtain ⟨r, hr, rfl⟩ := h
      obtain ⟨total, -, rfl⟩ := receiving_eq_ok.mp hr
      refine ⟨_, ((getOrCreate_frame l m.recipient).trans (put_frame _ _)).trans (put_frame _ _), rfl⟩
  | transfer m =>
    obtain ⟨k, hk, rfl⟩ := transfer_eq_ok.mp h
    exact ⟨k, debit_frame hk, rfl⟩
  | receive m =>
    obtain ⟨hs, k, hk, rfl⟩ := receive_eq_ok.mp h
    have hf := credit_frame hk
    exact ⟨k, hf, hs.trans (nextSequence_of_frame hf _).symm, rfl⟩
  | bond m =>
    obtain ⟨-, k, power, hk, hp, rfl⟩ := bond_eq_ok.mp h
    exact ⟨k, debit_frame hk, power, hp, rfl⟩
  | unbond m =>
    obtain ⟨b, -, hk⟩ := unbond_eq_ok.mp h
    have hf := credit_frame hk
    exact ⟨{ l with accounts := n.accounts, counter := n.counter }, rfl, hf⟩
  | mine m =>
    obtain ⟨w, k, hw, hk, rfl⟩ := mine_eq_ok.mp h
    obtain ⟨paid, -, hc⟩ := reward_eq_ok.mp hk
    obtain ⟨-, -, -, -, -, rfl⟩ := nextWork_eq_ok.mp hw
    exact ⟨k, credit_frame hc, rfl⟩
  | setTrend m =>
    cases h
    exact ⟨l, .refl l, rfl⟩
  | quiz m =>
    obtain ⟨-, h⟩ := quiz_eq_ok.mp h
    split at h
    · rw [h]
      exact ⟨l, .refl l, rfl⟩
    · obtain ⟨paid, -, hc⟩ := reward_eq_ok.mp h
      exact ⟨n, credit_frame hc, rfl⟩

/-- Signing and paying fees leaves all but accounts and fees alone. -/
theorem screen_frame {t : Transaction} (h : l.screen t = .ok n) :
    n = { l with accounts := n.accounts, counter := n.counter, fees := n.fees } := by
  refine screen_preserves
    (P := fun k => k = { l with accounts := k.accounts, counter := k.counter, fees := k.fees })
    h (fun k k' signer g hk ha => ?_) (fun k k' payer fee hk hc => ?_) rfl
  · obtain ⟨x, y, -, -, rfl⟩ := authorize_eq_ok.mp ha
    rw [hk]
    rfl
  · have hc := charge_eq_ok.mp hc
    split at hc
    · rw [hc]
      exact hk
    · obtain ⟨d, hd, hf⟩ := hc
      obtain ⟨total, -, rfl⟩ := addFee_eq_ok.mp hf
      rw [debit_frame hd, hk]

theorem execute_eq_ok {mode : Mode} {t : Transaction} :
    l.execute mode t = .ok n ↔ t.check = .ok () ∧
      ∃ k, l.screen t = .ok k ∧ t.messages.foldlM (fun l m => l.apply mode m) k = .ok n := by
  unfold execute
  rw [check_bind_eq_ok]
  simp only [bind_eq_ok]

end Appchain.Ledger
