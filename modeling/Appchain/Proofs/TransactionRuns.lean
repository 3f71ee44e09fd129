import Appchain.Proofs.ModuleRuns
import Appchain.Proofs.SignedAccounts

/-!
# Transactions follow the ledger

A transaction is admitted and its messages are carried out as `Ledger.execute`
says. All that is asked of it is that the coins it names may be listed, which is
so for every transaction that has been decoded.
-/

namespace Appchain

open MultiStore

/-- The coins that the message carries may be listed. -/
def Message.Valid : Message → Prop
  | .send m => m.amount.Valid
  | .transfer m => m.packet.coins.Valid
  | .receive m => m.packet.coins.Valid
  | _ => True

structure Transaction.Valid (t : Transaction) : Prop where
  fee : t.fee.amount.Valid
  messages : ∀ m ∈ t.messages, m.Valid

variable {s : MultiStore} {mode : Mode} {l : Ledger}

namespace Router

theorem get?_standard {name : String} {h : Handler} (hm : (name, h) ∈ standardRoutes) :
    standard.handlers.get? name = some h := by
  simp only [standardRoutes, List.mem_cons, Prod.mk.injEq, List.not_mem_nil, or_false] at hm
  rcases hm with ⟨rfl, rfl⟩ | ⟨rfl, rfl⟩ | ⟨rfl, rfl⟩ | ⟨rfl, rfl⟩ | ⟨rfl, rfl⟩ <;>
    simp [standard, standardRoutes, OrderedMap.ofList, OrderedMap.get?_insert]

theorem dispatch_eq {m : Message} {h : Handler} (hm : (m.route, h) ∈ standardRoutes) :
    standard.dispatch m.route m = h m := by
  unfold dispatch
  rw [get?_standard hm]

/-- Every message has a handler. -/
theorem find?_unknown (ms : List Message) : (ms.find? fun m => !standard.has m.route) = none := by
  rw [List.find?_eq_none]
  intro m _
  rw [has_route_standard]
  decide

theorem leaves_dispatch {m : Message} (hm : m.Valid) :
    Leaves s mode (standard.dispatch m.route m) l (l.apply mode m) := by
  cases m with
  | send m =>
    rw [dispatch_eq (h := Bank.handle) (by simp [standardRoutes, Message.route])]
    exact Bank.leaves_send _ _ hm
  | transfer m =>
    rw [dispatch_eq (h := Channels.handle) (by simp [standardRoutes, Message.route])]
    exact Channels.leaves_transfer hm
  | receive m =>
    rw [dispatch_eq (h := Channels.handle) (by simp [standardRoutes, Message.route])]
    exact Channels.leaves_receive hm
  | bond m =>
    rw [dispatch_eq (h := Staking.handle) (by simp [standardRoutes, Message.route])]
    exact (Staking.leaves_bond m).discard fun _ _ _ => .pure _
  | unbond m =>
    rw [dispatch_eq (h := Staking.handle) (by simp [standardRoutes, Message.route])]
    exact (Staking.leaves_unbond m.holder).discard fun _ _ _ => .pure _
  | mine m =>
    rw [dispatch_eq (h := Mining.handle) (by simp [standardRoutes, Message.route])]
    exact Mining.leaves_mine m
  | setTrend m =>
    rw [dispatch_eq (h := Trend.handle) (by simp [standardRoutes, Message.route])]
    exact Trend.leaves_set m.trend
  | quiz m =>
    rw [dispatch_eq (h := Trend.handle) (by simp [standardRoutes, Message.route])]
    exact Trend.leaves_answer m

end Router

namespace Admission

theorem coins_signed {x y : Account} {a : Address} {g : Signature} (h : signed x a g = .ok y) :
    y.coins = x.coins := by
  obtain ⟨key, -, rfl⟩ := signed_eq_ok_iff.mp h
  exact coins_signedWith x key

theorem reads_account (a : Address) : Reads s mode (account a) l (l.account a) := by
  unfold account
  apply (Accounts.reads_get? a).bind (g := fun _ => l.account a)
  intro x hx
  cases hx
  unfold Ledger.account
  cases l.accounts.get? a with
  | none => exact .throw _
  | some x => exact .pure _

theorem valid_account (hv : l.Valid) {a : Address} {x : Account} (h : l.account a = .ok x) :
    x.coins.Valid := by
  unfold Ledger.account at h
  split at h
  · next y hy =>
    cases h
    exact hv.accounts a x hy
  · cases h

theorem leaves_authorize (signer : Address) (g : Signature) :
    Leaves s mode (authorize signer g) l (l.authorize signer g) := by
  apply Leaves.of_valid
  intro hv
  unfold authorize Ledger.authorize
  refine (reads_account signer).leaves fun x hx => (Reads.lift _).leaves fun y hy => ?_
  apply Accounts.leaves_put
  rw [coins_signed hy]
  exact valid_account hv hx

theorem leaves_charge (payer : Address) {fee : Coins} (hf : fee.Valid) :
    Leaves s mode (charge payer fee) l (l.charge payer fee) := by
  apply Leaves.of_valid
  intro hv
  unfold charge Ledger.charge
  split
  · exact .pure _
  · apply (reads_account payer).leaves
    intro x hx
    cases hs : x.coins.sub? fee with
    | none => exact .throw _
    | some rest =>
      have hr : (x.withCoins rest).coins.Valid := by
        rw [Account.coins_withCoins]
        exact (valid_account hv hx).sub hs
      apply Leaves.bind (r := .ok _) (Accounts.leaves_put hr) (g := fun n => n.addFee fee)
      intro _ n hn
      exact (Fees.leaves_add hf).discard fun _ _ _ => .pure _

theorem leaves_screen {t : Transaction} (ht : t.Valid) :
    Leaves s mode (screen t) l (l.screen t) := by
  unfold screen Ledger.screen
  apply Accounts.reads_parameters.leaves (g := fun _ => _)
  intro p hp
  cases hp
  apply (Reads.lift _).leaves
  intro _ _
  apply Leaves.bind (.forM fun e _ n => leaves_authorize e.1 e.2)
  intro _ n _
  cases t.signers.head? with
  | none => exact .pure _
  | some payer => exact leaves_charge payer ht.fee

end Admission

/-- Route and tag of every message. -/
def Transaction.events (t : Transaction) : List (String × String) :=
  t.messages.map fun m => (m.route, m.tag)

theorem App.runs_messages {ms : List Message} (hm : ∀ m ∈ ms, m.Valid) :
    Runs s mode
      (ms.mapM fun m => do
        Router.standard.dispatch m.route m
        return (m.route, m.tag)) l
      (do
        let n ← ms.foldlM (fun l m => l.apply mode m) l
        return (ms.map fun m => (m.route, m.tag), n)) := by
  induction ms generalizing l with
  | nil => exact .pure _
  | cons m ms ih =>
    rw [List.mapM_cons, List.foldlM_cons, bind_assoc, bind_assoc]
    apply (Router.leaves_dispatch (hm m (List.mem_cons_self ..))).runs
    intro _ n _
    rw [pure_bind]
    have hr := (ih (l := n) fun x hx => hm x (List.mem_cons_of_mem m hx)).bind
      (f := fun es => pure ((m.route, m.tag) :: es))
      (g := fun r => .ok ((m.route, m.tag) :: r.1, r.2)) fun es k _ => .pure _
    rw [bind_assoc] at hr
    exact hr

/-- A transaction runs as the ledger says. -/
theorem App.runs_execute {a : App} (hs : a.screen = Admission.screen) {t : Transaction}
    (ht : t.Valid) :
    Runs s mode (a.execute t) l (do
      let n ← l.execute mode t
      return (t.events, n)) := by
  unfold App.execute Ledger.execute
  rw [hs, bind_assoc]
  apply (Reads.lift _).runs
  intro _ _
  rw [Router.find?_unknown, bind_assoc]
  exact (Admission.leaves_screen ht).runs fun _ n _ => App.runs_messages ht.messages

end Appchain
