import Appchain.Proofs.Conservation
import Appchain.Proofs.Spending

/-!
# Transactions message by message

A transaction that is accepted has been admitted, and then its messages have run
one after another. What a message has done can be read off the stores as they
were before it and after it, that is, between the admission and the writes that
are delivered.
-/

namespace Appchain

open Outcome MultiStore

/-- What an operation answers in a context. -/
def Context.read {ε α : Type} (c : Context) (x : ExecWith ε α) : Except ε α := (x.run.run c).1

theorem Context.Holds.read_eq {ε α : Type} {s : MultiStore} {mode : Mode} {l : Ledger} {c : Context}
    {x : ExecWith ε α} {r : Except ε α} (h : c.Holds s mode l) (hr : Reads s mode x l r) :
    c.read x = r := congrArg Prod.fst (hr c h)

/-- A loop that only collects what does not depend on it. -/
theorem mapM_eq_forM {m : Type → Type} [Monad m] [LawfulMonad m] {α β : Type} (f : α → m PUnit)
    (g : α → β) (as : List α) :
    (as.mapM fun a => do f a; return g a) = (do as.forM f; return as.map g) := by
  induction as with
  | nil => simp
  | cons a as ih =>
    rw [List.mapM_cons, ih]
    simp

/-! Balances. -/

namespace Ledger

variable {l n : Ledger} {denom : String} {a : Address} {amount : Coins}

/-- The coins of an address, none if it has no account. -/
def holding (l : Ledger) (a : Address) : Coins := ((l.accounts.get? a).map Account.coins).getD .empty

theorem balance_eq (l : Ledger) (denom : String) (a : Address) :
    l.balance denom a = ((l.holding a).amountOf denom).toNat := by
  unfold balance OrderedMap.shareOf holding
  cases l.accounts.get? a <;> rfl

theorem balance_put (l : Ledger) (denom : String) (x : Account) (q : Address) :
    (l.put x).balance denom q = if q = x.address then x.amount denom else l.balance denom q := by
  unfold balance OrderedMap.shareOf put
  rw [OrderedMap.get?_insert]
  split <;> rfl

theorem balance_credit (hf : AccountsFit l.accounts) (h : l.credit a amount = .ok n)
    (denom : String) (q : Address) :
    n.balance denom q = l.balance denom q + if q = a then (amount.amountOf denom).toNat else 0 := by
  obtain ⟨total, ht, rfl⟩ := credit_eq_ok.mp h
  have hsum := Coins.add?_eq_some_iff.mp ht denom
  have hb : (l.getOrCreate a).2.balance denom q = l.balance denom q := by
    unfold getOrCreate
    split <;> rfl
  rw [balance_put, Account.address_withCoins, (hf.getOrCreate a).1.address_eq, amount_withCoins, hb]
  split
  · next hq =>
    rw [← hsum, ← hb, hq, (supply_getOrCreate denom l a).2]
    rfl
  · rfl

theorem balance_debit (hf : AccountsFit l.accounts) (h : l.debit a amount = .ok n)
    (denom : String) (q : Address) :
    l.balance denom q = n.balance denom q + if q = a then (amount.amountOf denom).toNat else 0 := by
  obtain ⟨x, rest, hx, hs, rfl⟩ := debit_eq_ok.mp h
  have hsum := Coins.sub?_eq_some_iff.mp hs denom
  rw [balance_put, Account.address_withCoins, (hf a x hx).address_eq, amount_withCoins]
  split
  · next hq =>
    rw [hq, balance_of_get? hx, Account.amount]
    omega
  · rfl

end Ledger

theorem Accounts.reads_coins {s : MultiStore} {mode : Mode} {l : Ledger} (a : Address) :
    Reads s mode (coins a) l (.ok (l.holding a)) := by
  unfold coins Ledger.holding
  apply (reads_get? a).bind (g := fun _ => .ok _)
  intro x hx
  cases hx
  cases l.accounts.get? a with
  | none => exact .pure _
  | some x => exact .pure _

/-- From one context to another an address has gained an amount, and nobody else has gained or lost
anything. Read backwards, the address has paid the amount. -/
def Context.Gains (p : Address) (amount : Coins) (c d : Context) : Prop :=
  ∀ q, ∃ before after, c.read (Accounts.coins q) = .ok before ∧ d.read (Accounts.coins q) = .ok after ∧
    ∀ denom, (after.amountOf denom).toNat =
      (before.amountOf denom).toNat + if q = p then (amount.amountOf denom).toNat else 0

theorem Context.Holds.gains {s : MultiStore} {mode : Mode} {l n : Ledger} {c d : Context} {p : Address}
    {amount : Coins} (hc : c.Holds s mode l) (hd : d.Holds s mode n)
    (h : ∀ denom q, n.balance denom q =
      l.balance denom q + if q = p then (amount.amountOf denom).toNat else 0) :
    Context.Gains p amount c d := by
  intro q
  refine ⟨_, _, hc.read_eq (Accounts.reads_coins q), hd.read_eq (Accounts.reads_coins q), fun denom => ?_⟩
  rw [← Ledger.balance_eq, ← Ledger.balance_eq]
  exact h denom q

/-! Stages. -/

namespace App

variable {a : App} {l k n : Ledger} {text : Bytes} {t : Transaction} {ms : List Message}

/-- Where a transaction is once it has been admitted and some messages have run. -/
def stage (a : App) (t : Transaction) (ms : List Message) : Except TxError Unit × Context :=
  (do a.screen t; ms.forM fun m => Router.standard.dispatch m.route m).run.run (a.context .deliver)

/-- A delivered transaction gets through all its messages, each of which does what is said of it,
and what is written is what there is after the last one. -/
structure Carries (a : App) (text : Bytes) (t : Transaction)
    (does : Message → Context → Context → Prop) : Prop where
  writes : ∃ c, a.stage t t.messages = (.ok (), c) ∧
    a.run .deliver text = .ok (.accepted t.events, some c.writes)
  message : ∀ before m after, t.messages = before ++ m :: after → ∃ c d,
    a.stage t before = (.ok (), c) ∧ a.stage t (before ++ [m]) = (.ok (), d) ∧ does m c d

/-- A transaction that is well-formed runs through its last stage. -/
theorem execute_eq (a : App) (t : Transaction) :
    a.execute t = (do
      Exec.lift t.check
      a.screen t
      t.messages.forM fun m => Router.standard.dispatch m.route m
      return t.events) := by
  unfold execute
  rw [Router.find?_unknown]
  simp only [mapM_eq_forM]
  rfl

theorem decode_of_accepted (h : a.accepted (.deliver text) = some t) :
    Transaction.decode .standard text = .ok t := by
  simp only [accepted] at h
  split at h
  · split at h
    · exact toOption_eq_some.mp h
    · cases h
  · cases h

/-- The ledger of a stage. -/
theorem Holds.stage_of_ok (h : a.Holds l) (ht : t.Valid) (hms : ∀ m ∈ ms, m.Valid)
    (hk : l.screen t = .ok k) (hn : ms.foldlM (fun l m => l.apply .deliver m) k = .ok n) :
    ∃ c, a.stage t ms = (.ok (), c) ∧ c.Holds a.store .deliver n := by
  have hr := (Admission.leaves_screen ht).bind (g := fun k => ms.foldlM (fun l m => l.apply .deliver m) k)
    (fun _ k _ => Leaves.forM fun m hm _ => Router.leaves_dispatch (hms m hm)) _ (h.context .deliver)
  rw [bind_eq_ok.mpr ⟨k, hk, hn⟩, ← h.screen] at hr
  obtain ⟨_, c, hc, hh⟩ := hr
  exact ⟨c, hc, hh⟩

/-- A transaction that gets through its messages is accepted with what they have written. -/
theorem Holds.run_of_stage {c : Context} (h : a.Holds l) (hd : Transaction.decode .standard text = .ok t)
    (hcheck : t.check = .ok ()) (hc : a.stage t t.messages = (.ok (), c)) :
    a.run .deliver text = .ok (.accepted t.events, some c.writes) := by
  have hx : (a.execute t).run.run (a.context .deliver) = (.ok t.events, c) := by
    have hlift : (Exec.lift t.check).run.run (a.context .deliver) = (.ok (), a.context .deliver) := by
      rw [hcheck]
      rfl
    rw [execute_eq, run_bind_ok hlift, ← bind_assoc, run_bind_ok hc]
    rfl
  unfold run
  rw [h.phase, hd]
  simp only [ne_eq, not_true_eq_false, ↓reduceIte, hx]

/-- What is said of the messages of a transaction has to hold of their steps on ledgers. -/
theorem Holds.carries {does : Message → Context → Context → Prop} (h : a.Holds l) (hl : l.WellFormed)
    (ht : a.accepted (.deliver text) = some t)
    (step : ∀ k n m c d, k.WellFormed → k.apply .deliver m = .ok n → c.Holds a.store .deliver k →
      d.Holds a.store .deliver n → does m c d) : a.Carries text t does := by
  obtain ⟨-, n, -, -, he⟩ := h.perform_of_accepted hl ht
  have hd := decode_of_accepted ht
  have hv := Transaction.valid_of_decode hd
  obtain ⟨hcheck, k, hk, hms⟩ := Ledger.execute_eq_ok.mp he
  have hchecks := Transaction.messages_of_check hcheck
  constructor
  · obtain ⟨c, hc, -⟩ := h.stage_of_ok hv hv.messages hk hms
    exact ⟨c, hc, h.run_of_stage hd hcheck hc⟩
  · intro before m after hsplit
    rw [hsplit] at hms
    obtain ⟨k₁, k₂, h₁, hm, h₂⟩ := foldlM_step hms
    have hmem : ∀ x ∈ before ++ [m], x ∈ t.messages := by
      intro x hx
      rw [hsplit, List.append_cons]
      exact List.mem_append_left _ hx
    obtain ⟨hbefore, -⟩ := List.forall_mem_append.mp hmem
    have hwf : k₁.WellFormed :=
      foldlM_preserves (fun x hx _ _ hw => hw.apply (hchecks x (hbefore x hx))) (hl.screen hk) h₁
    obtain ⟨c, hc, hk₁⟩ := h.stage_of_ok hv (fun x hx => hv.messages x (hbefore x hx)) hk h₁
    obtain ⟨d, hd, hk₂⟩ := h.stage_of_ok hv (fun x hx => hv.messages x (hmem x hx)) hk h₂
    exact ⟨c, d, hc, hd, step k₁ k₂ m c d hwf hm hk₁ hk₂⟩

end App
end Appchain
