import Appchain.Proofs.ReadableAccounts

/-!
# Transfers

Coins move exactly or not at all, also in a context that keeps whatever is written to it.
Both sides of a transfer are worked out before either is stored, and a new account, whose
number has been taken by then, has no coins to overflow; so whatever fails has written
nothing.
-/

namespace Appchain

open Outcome

namespace Context

variable {c d : Context} {a : Address} {amount : Coins} {n : UInt64}

/-- No denomination of the balance overflows when the amount is added. -/
def HasRoom (c : Context) (a : Address) (amount : Coins) : Prop :=
  ∀ e, ((c.balance a).amountOf e).toNat + (amount.amountOf e).toNat < UInt64.size

theorem hasRoom_iff :
    c.HasRoom a amount ↔ ∃ total, (c.balance a).add? amount = some total :=
  Coins.exists_add?_iff.symm

/-- An address without an account has room for everything. -/
theorem hasRoom_of_none (h : c.account? a = none) (amount : Coins) : c.HasRoom a amount := by
  intro e
  unfold balance
  rw [h, Option.map_none, Option.getD_none, Coins.amountOf_empty, UInt64.toNat_zero, Nat.zero_add]
  exact UInt64.toNat_lt_size _

/-- Where something is stored when an address receives coins: an address without an account takes
a number as well. -/
def placesOf (c : Context) (a : Address) : List (String × Bytes) :=
  if (c.account? a).isSome then [placeOf a]
  else [placeOf a, (StoreKey.accounts.name, Accounts.counterKey)]

theorem changesOnly_counted (c : Context) (a : Address) (n : UInt64) :
    c.ChangesOnly (c.placesOf a) (c.counted a n) := by
  unfold counted placesOf
  split
  · exact .refl c
  · exact (ChangesOnly.refl c).wrote (List.mem_cons_of_mem _ (List.mem_singleton.mpr rfl)) _

theorem placeOf_mem_placesOf (c : Context) (a : Address) : placeOf a ∈ c.placesOf a := by
  unfold placesOf
  split <;> exact List.mem_cons_self ..

/-- The counter has moved on by one if the address had no account. -/
def CountsOn (c : Context) (n : UInt64) (a : Address) (d : Context) : Prop :=
  ∃ m, d.counter = .ok m ∧ m.toNat = if (c.account? a).isSome then n.toNat else n.toNat + 1

theorem countsOn_counted (hn : c.counter = .ok n) (hlt : n.toNat + 1 < UInt64.size) (a : Address) :
    c.CountsOn n a (c.counted a n) := by
  unfold CountsOn counted
  split
  · exact ⟨n, hn, rfl⟩
  · exact ⟨n + 1, c.counter_withCounter (n + 1), Word.toNat_add_one hlt⟩

theorem CountsOn.withAccount (h : c.CountsOn n a d) (x : Account) :
    c.CountsOn n a (d.withAccount x) := by
  obtain ⟨m, hm, hv⟩ := h
  exact ⟨m, (d.counter_withAccount x).trans hm, hv⟩

end Context

open Context

namespace Bank

variable {c d : Context} {n : UInt64}

/-- A payment is worked out without writing anything. -/
theorem run_afterPaying (h : c.ReadsAccounts) (a : Address) (amount : Coins) :
    (∃ x rest, c.account? a = some x ∧ x.coins.sub? amount = some rest ∧
      (afterPaying a amount).run.run c = (.ok (x.withCoins rest), c)) ∨
    (¬ c.Affords a amount ∧
      (afterPaying a amount).run.run c =
        (.error (.insufficientFunds a (c.balance a) amount), c)) := by
  unfold afterPaying
  rw [run_bind_ok (Accounts.run_get? h a)]
  cases hx : c.account? a with
  | none =>
    refine .inr ⟨by simp [affords_iff, hx], ?_⟩
    unfold balance
    rw [hx]
    rfl
  | some x =>
    rw [balance_of_account? hx]
    cases hr : x.coins.sub? amount with
    | none => exact .inr ⟨by simp [affords_iff, hx, hr], by simp only [hr]; rfl⟩
    | some rest => exact .inl ⟨x, rest, rfl, hr, by simp only [hr]; rfl⟩

/-- What is received is worked out without writing anything but the counter, and that only if it
can be received. -/
theorem run_afterReceiving (h : c.ReadsAccounts) (hn : c.counter = .ok n) (a : Address)
    (amount : Coins) :
    (∃ total, (c.balance a).add? amount = some total ∧
      (afterReceiving a amount).run.run c =
        (.ok ((c.accountFor a n).withCoins total), c.counted a n)) ∨
    (¬ c.HasRoom a amount ∧
      (afterReceiving a amount).run.run c = (.error (.invalidCoins (.balanceOverflow a)), c)) := by
  unfold afterReceiving
  rw [run_bind_ok (Accounts.run_getOrCreate h hn a), coins_accountFor]
  cases ht : (c.balance a).add? amount with
  | some total => exact .inl ⟨total, rfl, rfl⟩
  | none =>
    have hr : ¬ c.HasRoom a amount := by simp [hasRoom_iff, ht]
    refine .inr ⟨hr, ?_⟩
    cases hx : c.account? a with
    | none => exact absurd (hasRoom_of_none hx amount) hr
    | some x =>
      unfold counted
      rw [hx]
      rfl

/-- The account has come to the balance `rest`, which is as much less as the amount says. -/
structure Paid (c : Context) (a : Address) (amount rest : Coins) (d : Context) : Prop where
  account : ∃ x, c.account? a = some x ∧ d.account? a = some (x.withCoins rest)
  amounts : ∀ e, (rest.amountOf e).toNat + (amount.amountOf e).toNat =
    ((c.balance a).amountOf e).toNat

/-- The account, which may be a new one with the number `n`, has come to the balance `total`, which
is as much more as the amount says. It can be read unless the amount could not be listed. -/
structure Received (c : Context) (n : UInt64) (a : Address) (amount total : Coins) (d : Context) :
    Prop where
  stored : (d.contents .accounts).get? (Accounts.key a) =
    some ((c.accountFor a n).withCoins total).bytes
  account : amount.Valid → d.account? a = some ((c.accountFor a n).withCoins total)
  amounts : ∀ e, (total.amountOf e).toNat =
    ((c.balance a).amountOf e).toNat + (amount.amountOf e).toNat
  counter : c.CountsOn n a d

variable {a : Address} {x : Account} {amount rest total : Coins}

theorem paid_withAccount (h : c.ReadsAccounts) (hx : c.account? a = some x)
    (hr : x.coins.sub? amount = some rest) (d : Context) :
    Paid c a amount rest (d.withAccount (x.withCoins rest)) where
  account := by
    refine ⟨x, hx, d.account?_withAccount_self ?_ ?_⟩
    · rw [Account.address_withCoins, h.address_eq hx]
    · rw [Account.coins_withCoins]
      exact (valid_of_account? hx).sub hr
  amounts e := by
    rw [balance_of_account? hx, Nat.add_comm]
    exact Coins.sub?_eq_some_iff.mp hr e

theorem received_withAccount (h : c.ReadsAccounts) (ht : (c.balance a).add? amount = some total)
    (hd : c.CountsOn n a d) :
    Received c n a amount total (d.withAccount ((c.accountFor a n).withCoins total)) := by
  have ha : ((c.accountFor a n).withCoins total).address = a := by
    rw [Account.address_withCoins, h.address_accountFor]
  refine ⟨?_, fun hv => ?_, fun e => (Coins.add?_eq_some_iff.mp ht e).symm, hd.withAccount _⟩
  · unfold withAccount
    rw [ha, get?_contents_wrote_self]
  · refine d.account?_withAccount_self ha ?_
    rw [Account.coins_withCoins]
    exact (c.valid_balance a).add hv ht

/-! Taking coins away. -/

theorem run_subtract (h : c.ReadsAccounts) (a : Address) (amount : Coins) :
    (∃ x rest, c.account? a = some x ∧ x.coins.sub? amount = some rest ∧
      (subtract a amount).run.run c = (.ok rest, c.withAccount (x.withCoins rest))) ∨
    (¬ c.Affords a amount ∧ (subtract a amount).run.run c =
      (.error (.insufficientFunds a (c.balance a) amount), c)) := by
  unfold subtract
  rcases run_afterPaying h a amount with ⟨x, rest, hx, hr, hp⟩ | ⟨hna, hp⟩
  · rw [run_bind_ok hp, run_bind_ok (Accounts.run_put h.opens _), Account.coins_withCoins]
    exact .inl ⟨x, rest, hx, hr, rfl⟩
  · rw [run_bind_eq_error _ hp]
    exact .inr ⟨hna, rfl⟩

/-- Coins are taken away as they should, or nothing happens. -/
structure SubtractsExactly (c : Context) (a : Address) (amount : Coins) : Prop where
  succeeds_iff : (∃ rest d, (subtract a amount).run.run c = (.ok rest, d)) ↔ c.Affords a amount
  taken : ∀ rest d, (subtract a amount).run.run c = (.ok rest, d) →
    Paid c a amount rest d ∧ c.ChangesOnly [placeOf a] d
  fails : ∀ e d, (subtract a amount).run.run c = (.error e, d) →
    d = c ∧ e = .insufficientFunds a (c.balance a) amount

theorem subtractsExactly (h : c.ReadsAccounts) (a : Address) (amount : Coins) :
    SubtractsExactly c a amount := by
  rcases run_subtract h a amount with ⟨x, rest, hx, hr, hrun⟩ | ⟨hna, hrun⟩
  · constructor <;> rw [hrun]
    case succeeds_iff => exact iff_of_true ⟨rest, _, rfl⟩ (affords_iff.mpr ⟨x, rest, hx, hr⟩)
    case taken =>
      rintro _ _ ⟨⟩
      refine ⟨paid_withAccount h hx hr c, (ChangesOnly.refl c).wrote ?_ _⟩
      rw [Account.address_withCoins, h.address_eq hx]
      exact List.mem_singleton.mpr rfl
    case fails => rintro e d ⟨⟩
  · constructor <;> rw [hrun]
    case succeeds_iff => exact iff_of_false (by rintro ⟨rest, d, ⟨⟩⟩) hna
    case taken => rintro rest d ⟨⟩
    case fails =>
      rintro e d ⟨⟩
      exact ⟨rfl, rfl⟩

/-! Giving coins. -/

theorem run_add (h : c.ReadsAccounts) (hn : c.counter = .ok n) (a : Address) (amount : Coins) :
    (∃ total, (c.balance a).add? amount = some total ∧ (add a amount).run.run c =
      (.ok total, (c.counted a n).withAccount ((c.accountFor a n).withCoins total))) ∨
    (¬ c.HasRoom a amount ∧
      (add a amount).run.run c = (.error (.invalidCoins (.balanceOverflow a)), c)) := by
  unfold add
  rcases run_afterReceiving h hn a amount with ⟨total, ht, hq⟩ | ⟨hnr, hq⟩
  · rw [run_bind_ok hq, run_bind_ok (Accounts.run_put (h.counted a n).opens _),
      Account.coins_withCoins]
    exact .inl ⟨total, ht, rfl⟩
  · rw [run_bind_eq_error _ hq]
    exact .inr ⟨hnr, rfl⟩

/-- Coins are given as they should, or nothing happens. -/
structure AddsExactly (c : Context) (n : UInt64) (a : Address) (amount : Coins) : Prop where
  succeeds_iff : (∃ total d, (add a amount).run.run c = (.ok total, d)) ↔ c.HasRoom a amount
  given : ∀ total d, (add a amount).run.run c = (.ok total, d) →
    Received c n a amount total d ∧ c.ChangesOnly (c.placesOf a) d
  fails : ∀ e d, (add a amount).run.run c = (.error e, d) →
    d = c ∧ e = .invalidCoins (.balanceOverflow a)

theorem addsExactly (h : c.ReadsAccounts) (hn : c.counter = .ok n)
    (hlt : n.toNat + 1 < UInt64.size) (a : Address) (amount : Coins) :
    AddsExactly c n a amount := by
  rcases run_add h hn a amount with ⟨total, ht, hrun⟩ | ⟨hnr, hrun⟩
  · constructor <;> rw [hrun]
    case succeeds_iff => exact iff_of_true ⟨total, _, rfl⟩ (hasRoom_iff.mpr ⟨total, ht⟩)
    case given =>
      rintro _ _ ⟨⟩
      refine ⟨received_withAccount h ht (countsOn_counted hn hlt a), ?_⟩
      refine (c.changesOnly_counted a n).wrote ?_ _
      rw [Account.address_withCoins, h.address_accountFor]
      exact c.placeOf_mem_placesOf a
    case fails => rintro e d ⟨⟩
  · constructor <;> rw [hrun]
    case succeeds_iff => exact iff_of_false (by rintro ⟨total, d, ⟨⟩⟩) hnr
    case given => rintro total d ⟨⟩
    case fails =>
      rintro e d ⟨⟩
      exact ⟨rfl, rfl⟩

/-! Both at once. -/

/-- The context after a transfer between different addresses. -/
def moved (c : Context) (n : UInt64) (x : Account) (rest : Coins) (target : Address)
    (total : Coins) : Context :=
  ((c.counted target n).withAccount (x.withCoins rest)).withAccount
    ((c.accountFor target n).withCoins total)

/-- All that can become of a transfer. -/
theorem run_send (h : c.ReadsAccounts) (hn : c.counter = .ok n) (source target : Address)
    (amount : Coins) :
    (¬ c.Affords source amount ∧ (send source target amount).run.run c =
      (.error (.insufficientFunds source (c.balance source) amount), c)) ∨
    (c.Affords source amount ∧ source = target ∧
      (send source target amount).run.run c = (.ok (), c)) ∨
    (c.Affords source amount ∧ source ≠ target ∧ ¬ c.HasRoom target amount ∧
      (send source target amount).run.run c =
        (.error (.invalidCoins (.balanceOverflow target)), c)) ∨
    (∃ x rest total, source ≠ target ∧ c.account? source = some x ∧
      x.coins.sub? amount = some rest ∧ (c.balance target).add? amount = some total ∧
      (send source target amount).run.run c = (.ok (), moved c n x rest target total)) := by
  unfold send
  rcases run_afterPaying h source amount with ⟨x, rest, hx, hr, hp⟩ | ⟨hna, hp⟩
  · rw [run_bind_ok hp]
    have ha := affords_iff.mpr ⟨x, rest, hx, hr⟩
    by_cases he : source = target
    · rw [if_pos he]
      exact .inr (.inl ⟨ha, he, rfl⟩)
    · rw [if_neg he]
      rcases run_afterReceiving h hn target amount with ⟨total, ht, hq⟩ | ⟨hnr, hq⟩
      · have hread := h.counted target n
        refine .inr (.inr (.inr ⟨x, rest, total, he, hx, hr, ht, ?_⟩))
        rw [run_bind_ok hq, run_bind_ok (Accounts.run_put hread.opens _)]
        exact Accounts.run_put (hread.opens.withAccount _) _
      · rw [run_bind_eq_error _ hq]
        exact .inr (.inr (.inl ⟨ha, he, hnr, rfl⟩))
  · rw [run_bind_eq_error _ hp]
    exact .inl ⟨hna, rfl⟩

/-- What a transfer between different addresses leaves: the two accounts with their new balances,
which can be read since the amount may be listed, and the counter if the second account is new. -/
structure Sent (c : Context) (n : UInt64) (source target : Address) (amount : Coins) (d : Context) :
    Prop where
  listed : amount.Valid
  payer : ∃ rest, Paid c source amount rest d
  recipient : ∃ total, Received c n target amount total d
  changes : c.ChangesOnly (placeOf source :: c.placesOf target) d

theorem sent_moved (h : c.ReadsAccounts) (hn : c.counter = .ok n) (hlt : n.toNat + 1 < UInt64.size)
    {source target : Address} (hne : source ≠ target) (hx : c.account? source = some x)
    (hr : x.coins.sub? amount = some rest) (ht : (c.balance target).add? amount = some total) :
    Sent c n source target amount (moved c n x rest target total) := by
  have hpayer : (x.withCoins rest).address = source := by
    rw [Account.address_withCoins, h.address_eq hx]
  have hrecipient : ((c.accountFor target n).withCoins total).address = target := by
    rw [Account.address_withCoins, h.address_accountFor]
  constructor
  case listed => exact (affords_iff.mpr ⟨x, rest, hx, hr⟩).valid
  case payer =>
    -- The recipient's account is stored last, under another key.
    obtain ⟨⟨y, hy, hd⟩, hamounts⟩ := paid_withAccount h hx hr (c.counted target n)
    refine ⟨rest, ⟨y, hy, ?_⟩, hamounts⟩
    rw [← hd]
    exact account?_withAccount_of_ne _ (by rwa [hrecipient])
  case recipient =>
    exact ⟨total, received_withAccount h ht ((countsOn_counted hn hlt target).withAccount _)⟩
  case changes =>
    have hcounted : c.ChangesOnly (placeOf source :: c.placesOf target) (c.counted target n) :=
      (c.changesOnly_counted target n).mono (List.subset_cons_self ..)
    refine (hcounted.wrote ?_ _).wrote ?_ _
    · rw [hpayer]
      exact List.mem_cons_self ..
    · rw [hrecipient]
      exact List.mem_cons_of_mem _ (c.placeOf_mem_placesOf target)

/-- A transfer happens as it should, or nothing happens. -/
structure SendsExactly (c : Context) (n : UInt64) (source target : Address) (amount : Coins) :
    Prop where
  succeeds_iff : (∃ d, (send source target amount).run.run c = (.ok (), d)) ↔
    c.Affords source amount ∧ (source ≠ target → c.HasRoom target amount)
  sent : ∀ d, (send source target amount).run.run c = (.ok (), d) → source ≠ target →
    Sent c n source target amount d
  same : ∀ d, (send source target amount).run.run c = (.ok (), d) → source = target → d = c
  fails : ∀ e d, (send source target amount).run.run c = (.error e, d) → d = c ∧
    ((¬ c.Affords source amount ∧ e = .insufficientFunds source (c.balance source) amount) ∨
      (c.Affords source amount ∧ e = .invalidCoins (.balanceOverflow target)))

theorem sendsExactly (h : c.ReadsAccounts) (hn : c.counter = .ok n)
    (hlt : n.toNat + 1 < UInt64.size) (source target : Address) (amount : Coins) :
    SendsExactly c n source target amount := by
  rcases run_send h hn source target amount with
    ⟨hna, hrun⟩ | ⟨ha, he, hrun⟩ | ⟨ha, hne, hnr, hrun⟩ | ⟨x, rest, total, hne, hx, hr, ht, hrun⟩
  · constructor <;> rw [hrun]
    case succeeds_iff => exact iff_of_false (by rintro ⟨d, ⟨⟩⟩) fun hc => hna hc.1
    case sent => rintro d ⟨⟩
    case same => rintro d ⟨⟩
    case fails =>
      rintro e d ⟨⟩
      exact ⟨rfl, .inl ⟨hna, rfl⟩⟩
  · constructor <;> rw [hrun]
    case succeeds_iff => exact iff_of_true ⟨c, rfl⟩ ⟨ha, fun hc => absurd he hc⟩
    case sent =>
      rintro d ⟨⟩ hc
      exact absurd he hc
    case same =>
      rintro d ⟨⟩ -
      rfl
    case fails => rintro e d ⟨⟩
  · constructor <;> rw [hrun]
    case succeeds_iff => exact iff_of_false (by rintro ⟨d, ⟨⟩⟩) fun hc => hnr (hc.2 hne)
    case sent => rintro d ⟨⟩
    case same => rintro d ⟨⟩
    case fails =>
      rintro e d ⟨⟩
      exact ⟨rfl, .inr ⟨ha, rfl⟩⟩
  · constructor <;> rw [hrun]
    case succeeds_iff =>
      exact iff_of_true ⟨_, rfl⟩
        ⟨affords_iff.mpr ⟨x, rest, hx, hr⟩, fun _ => hasRoom_iff.mpr ⟨total, ht⟩⟩
    case sent =>
      rintro d ⟨⟩ -
      exact sent_moved h hn hlt hne hx hr ht
    case same =>
      rintro d ⟨⟩ he
      exact absurd he hne
    case fails => rintro e d ⟨⟩

/-- Whatever the addresses and the amount, coins are moved, taken away and given exactly, and what
fails leaves the context as it was. -/
theorem transfers_exact (h : c.ReadsAccounts) (hn : c.counter = .ok n)
    (hlt : n.toNat + 1 < UInt64.size) (source target : Address) (amount : Coins) :
    SendsExactly c n source target amount ∧ SubtractsExactly c source amount ∧
      AddsExactly c n target amount :=
  ⟨sendsExactly h hn hlt source target amount, subtractsExactly h source amount,
    addsExactly h hn hlt target amount⟩

open Context.Sample

/-- The one account pays the other address, which gets an account with the first number. -/
theorem transfers_exact_funded :
    funded.ReadsAccounts ∧ funded.counter = .ok 0 ∧ (0 : UInt64).toNat + 1 < UInt64.size ∧
      ∃ d, (send holder friend (.single "steak" 40)).run.run funded = (.ok (), d) ∧
        ((d.balance holder).amountOf "steak").toNat = 60 ∧
        ((d.balance friend).amountOf "steak").toNat = 40 ∧ d.counter = .ok 1 := by
  have hcounter : funded.counter = .ok 0 := blank.counter_withAccount purse
  have hlt : (0 : UInt64).toNat + 1 < UInt64.size := by decide
  have hne : friend ≠ holder := by decide +kernel
  have hfriend : funded.account? friend = none := account?_of_ne hne
  obtain ⟨hsends, -, -⟩ :=
    transfers_exact readsAccounts_funded hcounter hlt holder friend (.single "steak" 40)
  obtain ⟨d, hd⟩ := hsends.succeeds_iff.mpr
    ⟨affords_purse (by decide), fun _ => hasRoom_of_none hfriend _⟩
  obtain ⟨hlisted, ⟨rest, ⟨x, -, hpayer⟩, hrest⟩, ⟨total, htotal⟩, -⟩ := hsends.sent d hd hne.symm
  refine ⟨readsAccounts_funded, hcounter, hlt, d, hd, ?_, ?_, ?_⟩
  · have h := hrest "steak"
    rw [balance_of_account? account?_holder] at h
    rw [balance_of_account? hpayer, Account.coins_withCoins]
    exact Nat.add_right_cancel (h.trans (by decide : _ = 60 + 40))
  · rw [balance_of_account? (htotal.account hlisted), Account.coins_withCoins, htotal.amounts]
    unfold balance
    rw [hfriend]
    decide
  · obtain ⟨m, hm, hv⟩ := htotal.counter
    rw [hfriend] at hv
    rw [hm]
    exact congrArg Except.ok (UInt64.toNat.inj hv)

end Bank
end Appchain
