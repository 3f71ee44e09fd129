import Appchain.Proofs.WellFormed

/-!
# Why transactions are rejected

On a well-formed ledger a transaction that has been decoded is rejected for what
it says only: never for the state of the stores, for its encoding, or for a
message that no module knows.
-/

namespace Appchain

open Outcome

/-- The error is about what a transaction says. -/
def TxError.isOrdinary : TxError → Bool
  | internal _ | codec _ | store _ | unknownRoute _ | unknownRequest .. => false
  | _ => true

theorem TxError.isOrdinary_iff (e : TxError) :
    e.isOrdinary = true ↔ e.code ≠ 1 ∧ e.code ≠ 2 ∧ e.code ≠ 6 := by
  cases e <;> simp [isOrdinary, code]

/-- Whether this can only fail for what a transaction says. -/
def Ordinary {α : Type} (r : Except TxError α) : Prop := ∀ e, r = .error e → e.isOrdinary = true

namespace Ordinary

variable {α β : Type} {r : Except TxError α}

theorem ok (a : α) : Ordinary (.ok a) := by
  intro e h
  cases h

theorem error {e : TxError} (he : e.isOrdinary = true) : Ordinary (.error e : Except TxError α) := by
  intro e' h
  cases h
  exact he

/-- A check of something the transaction says. -/
theorem guard {c : Prop} [Decidable c] {e : TxError} (he : e.isOrdinary = true) (hr : Ordinary r) :
    Ordinary (if c then .error e else r) := by
  split
  · exact error he
  · exact hr

theorem map (hr : Ordinary r) (f : α → β) : Ordinary (r.map f) :=
  fun e h => hr e (map_eq_error.mp h)

theorem bind {f : α → Except TxError β} (hr : Ordinary r) (hf : ∀ a, r = .ok a → Ordinary (f a)) :
    Ordinary (r >>= f) := by
  intro e h
  rcases bind_eq_error.mp h with h | ⟨a, ha, h⟩
  · exact hr e h
  · exact hf a ha e h

theorem forM {f : α → Except TxError Unit} {as : List α} (h : ∀ a ∈ as, Ordinary (f a)) :
    Ordinary (as.forM f) := by
  intro e he
  obtain ⟨a, ha, hf⟩ := forM_eq_error he
  exact h a ha e hf

theorem foldlM {f : β → α → Except TxError β} {P : β → Prop} {as : List α} {b : β}
    (step : ∀ a ∈ as, ∀ b c, P b → f b a = .ok c → P c)
    (hf : ∀ a ∈ as, ∀ b, P b → Ordinary (f b a)) (hb : P b) : Ordinary (as.foldlM f b) :=
  fun _ h => foldlM_error step (fun a ha b e hb => hf a ha b hb e) hb h

end Ordinary

open Ordinary

theorem Coins.ordinary_ofList (cs : List Coin) :
    Ordinary ((Coins.ofList cs).mapError fun f => TxError.invalidCoins (.notCoins f)) := by
  cases Coins.ofList cs with
  | ok c => exact .ok c
  | error f => exact .error rfl

theorem ordinary_checkChainId (chain : String) : Ordinary (checkChainId chain) := by
  unfold checkChainId
  split
  · exact .ok ()
  · exact .error rfl

theorem Packet.ordinary_check (p : Packet) : Ordinary p.check := by
  apply (ordinary_checkChainId p.source).bind
  intro _ _
  apply (ordinary_checkChainId p.destination).bind
  intro _ _
  apply guard rfl
  apply guard rfl
  exact .ok ()

theorem BondStake.ordinary_check (m : BondStake) : Ordinary m.check := by
  apply guard rfl
  apply guard rfl
  split
  · exact .error rfl
  · exact .ok ()
  · exact .error rfl

theorem Mine.ordinary_check (m : Mine) : Ordinary m.check := by
  apply guard rfl
  apply guard rfl
  apply guard rfl
  apply guard rfl
  exact .ok ()

theorem Message.ordinary_check (m : Message) : Ordinary m.check := by
  cases m with
  | send m => exact guard rfl (guard rfl (guard rfl (.ok ())))
  | transfer m => exact m.packet.ordinary_check
  | receive m => exact guard rfl m.packet.ordinary_check
  | bond m => exact m.ordinary_check
  | unbond m => exact guard rfl (.ok ())
  | mine m => exact m.ordinary_check
  | setTrend m => exact guard rfl (guard rfl (.ok ()))
  | quiz m => exact guard rfl (guard rfl (.ok ()))

theorem Transaction.ordinary_check (t : Transaction) : Ordinary t.check :=
  guard rfl (.forM fun m _ => m.ordinary_check)

namespace Admission

theorem ordinary_withKey (x : Account) (a : Address) (key : String) : Ordinary (withKey x a key) := by
  unfold withKey
  split
  · exact .error rfl
  · apply guard rfl
    split
    · exact .ok _
    · split
      · exact .ok x
      · exact .error rfl

theorem ordinary_checkSignature (a : Address) (signature : String) :
    Ordinary (checkSignature a signature) := by
  unfold checkSignature
  split
  · exact .error rfl
  · exact .error rfl
  · exact .ok ()

theorem ordinary_signed (x : Account) (a : Address) (g : Signature) : Ordinary (signed x a g) := by
  apply guard rfl
  apply guard rfl
  apply (ordinary_withKey x a g.publicKey).bind
  intro y _
  apply (ordinary_checkSignature a g.signature).bind
  intro _ _
  exact .ok _

theorem ordinary_checkLimits (p : AuthParameters) (t : Transaction) : Ordinary (checkLimits p t) :=
  guard rfl (guard rfl (guard rfl (.ok ())))

end Admission

namespace Ledger

variable {l : Ledger}

theorem ordinary_paying (l : Ledger) (a : Address) (amount : Coins) :
    Ordinary (l.paying a amount) := by
  unfold paying
  split
  · exact .error rfl
  · split
    · exact .error rfl
    · exact .ok _

theorem ordinary_receiving (l : Ledger) (a : Address) (amount : Coins) :
    Ordinary (l.receiving a amount) := by
  unfold receiving
  split
  · exact .error rfl
  · exact .ok _

theorem ordinary_debit (l : Ledger) (a : Address) (amount : Coins) : Ordinary (l.debit a amount) :=
  (l.ordinary_paying a amount).map l.put

theorem ordinary_credit (l : Ledger) (a : Address) (amount : Coins) :
    Ordinary (l.credit a amount) :=
  (l.ordinary_receiving a amount).map _

theorem ordinary_reward (l : Ledger) (a : Address) (coin : Coin) : Ordinary (l.reward a coin) := by
  apply (Coins.ordinary_ofList [coin]).bind
  intro paid _
  exact l.ordinary_credit a paid

theorem ordinary_send (l : Ledger) (source target : Address) (amount : Coins) :
    Ordinary (l.send source target amount) := by
  apply (l.ordinary_paying source amount).bind
  intro payer _
  split
  · exact .ok l
  · exact (l.ordinary_receiving target amount).bind fun _ _ => .ok _

theorem ordinary_transfer (l : Ledger) (m : Transfer) : Ordinary (l.transfer m) :=
  (l.ordinary_debit _ _).bind fun _ _ => .ok _

theorem ordinary_receive (l : Ledger) (m : Receive) : Ordinary (l.receive m) :=
  guard rfl ((l.ordinary_credit _ _).bind fun _ _ => .ok _)

theorem ordinary_addStake (l : Ledger) (m : BondStake) : Ordinary (l.addStake m) := by
  unfold addStake
  split
  · exact .error rfl
  · exact .ok _

theorem ordinary_bond (l : Ledger) (m : BondStake) : Ordinary (l.bond m) :=
  guard rfl ((l.ordinary_debit _ _).bind fun k _ => k.ordinary_addStake m)

theorem ordinary_unbond (l : Ledger) (a : Address) : Ordinary (l.unbond a) := by
  unfold unbond
  split
  · exact .error rfl
  · exact ordinary_credit _ a _

/-- Here the state of the stores could matter, but a well-formed ledger has both values. -/
theorem WellFormed.ordinary_nextWork (hl : l.WellFormed) (c : Mining.State) :
    Ordinary (l.nextWork c) := by
  obtain ⟨difficulty, count, hd, hc, -⟩ := hl.work
  unfold nextWork
  rw [hd, hc]
  exact guard rfl (guard rfl (.ok _))

theorem WellFormed.ordinary_mine (hl : l.WellFormed) (m : Mine) : Ordinary (l.mine m) := by
  apply (hl.ordinary_nextWork ⟨m.difficulty, m.count⟩).bind
  intro w _
  exact (l.ordinary_reward _ _).bind fun _ _ => .ok _

theorem ordinary_quiz (l : Ledger) (mode : Mode) (m : Quiz) : Ordinary (l.quiz mode m) := by
  unfold quiz
  split
  · split
    · exact .ok l
    · exact l.ordinary_reward _ _
  · exact .error rfl

theorem WellFormed.ordinary_apply (hl : l.WellFormed) (mode : Mode) (m : Message) :
    Ordinary (l.apply mode m) := by
  cases m with
  | send m => exact l.ordinary_send _ _ _
  | transfer m => exact l.ordinary_transfer m
  | receive m => exact l.ordinary_receive m
  | bond m => exact l.ordinary_bond m
  | unbond m => exact l.ordinary_unbond m.holder
  | mine m => exact hl.ordinary_mine m
  | setTrend m => exact .ok _
  | quiz m => exact l.ordinary_quiz mode m

theorem ordinary_account (l : Ledger) (a : Address) : Ordinary (l.account a) := by
  unfold account
  split
  · exact .ok _
  · exact .error rfl

theorem ordinary_authorize (l : Ledger) (signer : Address) (g : Signature) :
    Ordinary (l.authorize signer g) := by
  apply (l.ordinary_account signer).bind
  intro x _
  exact (Admission.ordinary_signed x signer g).bind fun _ _ => .ok _

theorem ordinary_addFee (l : Ledger) (fee : Coins) : Ordinary (l.addFee fee) := by
  unfold addFee
  split
  · exact .ok _
  · exact .error rfl

theorem ordinary_charge (l : Ledger) (payer : Address) (fee : Coins) :
    Ordinary (l.charge payer fee) := by
  unfold charge
  split
  · exact .ok l
  · apply (l.ordinary_account payer).bind
    intro x _
    split
    · exact .error rfl
    · exact ordinary_addFee _ fee

theorem ordinary_screen (l : Ledger) (t : Transaction) : Ordinary (l.screen t) := by
  apply (Admission.ordinary_checkLimits l.parameters t).bind
  intro _ _
  apply (Ordinary.foldlM (P := fun _ => True) (fun _ _ _ _ _ _ => trivial)
    (fun e _ n _ => n.ordinary_authorize e.1 e.2) trivial).bind
  intro n _
  split
  · exact n.ordinary_charge _ _
  · exact .ok n

/-- What a transaction is rejected for on a well-formed ledger. -/
theorem WellFormed.ordinary_execute (hl : l.WellFormed) (mode : Mode) (t : Transaction) :
    Ordinary (l.execute mode t) := by
  apply t.ordinary_check.bind
  intro _ hc
  apply (l.ordinary_screen t).bind
  intro k hk
  exact .foldlM (P := WellFormed)
    (fun m hm a b ha hb => ha.apply (Transaction.messages_of_check hc m hm) hb)
    (fun m _ n hn => hn.ordinary_apply mode m) (hl.screen hk)

end Ledger
end Appchain
