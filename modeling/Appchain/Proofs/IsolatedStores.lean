import Appchain.Proofs.AppRuns
import Appchain.Proofs.Isolation
import Appchain.Proofs.SortedValues

/-!
# Isolation of the stores

A module reads and writes its own stores and those of the modules it calls. A
transaction touches neither the parameters nor the marks of those that were set.
-/

namespace Appchain

open StoreKey MultiStore Outcome

variable {α : Type} {reads writes : List StoreKey}

open Exec

/-! Accounts, which every module reaches through the bank. -/

theorem Subspace.isolated_get? (hr : .parameters ∈ reads) (s : Subspace) (shape : Json.Shape α)
    (key : String) : Isolated reads writes (s.get? shape key) := by
  refine isolated_view (g := fun t => (t.get? (s.root ++ Bytes.ofString key)).elim (pure none)
    fun text => some <$> decoded (shape.decode text)) (by decide) hr (fun v => ?_) fun t => ?_
  · rw [← View.get_eq_contents]
    unfold partition Partition.get
    cases v.get (s.root ++ Bytes.ofString key) <;> rfl
  · cases t.get? (s.root ++ Bytes.ofString key) with
    | none => exact .pure none
    | some text => exact (isolated_decoded _).map some

theorem Accounts.isolated_parameters (hr : .parameters ∈ reads) :
    Isolated reads writes Accounts.parameters :=
  (subspace.isolated_get? hr _ _).bind fun _ => (subspace.isolated_get? hr _ _).bind fun _ => .pure _

theorem Fees.isolated_add (hr : .fees ∈ reads) (hw : .fees ∈ writes) (fee : Coins) :
    Isolated reads writes (Fees.add fee) := by
  have hcollected : Isolated reads writes collected :=
    (isolated_load (by decide) hr _ _).bind fun _ => .pure _
  refine hcollected.bind fun known => ?_
  split
  · exact (isolated_save (by decide) hw _ _ _).bind fun _ => .pure _
  · exact .throw _

section Accounts

variable (hr : .accounts ∈ reads) (hw : .accounts ∈ writes)

include hr in
theorem Accounts.isolated_get? (a : Address) : Isolated reads writes (Accounts.get? a) := by
  refine (isolated_read (by decide) hr _).bind fun value => ?_
  cases value with
  | some b => exact (Isolated.lift _).map some
  | none => exact .pure none

include hw in
theorem Accounts.isolated_put (a : Account) : Isolated reads writes (Accounts.put a) :=
  (Isolated.lift _).bind fun _ => isolated_write (by decide) hw _ _

include hr hw

theorem Accounts.isolated_create (a : Address) : Isolated reads writes (Accounts.create a) := by
  refine Isolated.bind ?_ fun _ => .pure _
  exact (isolated_load (by decide) hr _ _).bind fun _ =>
    (isolated_save (by decide) hw _ _ _).bind fun _ => .pure _

theorem Accounts.isolated_getOrCreate (a : Address) :
    Isolated reads writes (Accounts.getOrCreate a) := by
  refine (isolated_get? hr a).bind fun known => ?_
  cases known with
  | some x => exact .pure x
  | none => exact isolated_create hr hw a

namespace Bank

variable (a : Address) (amount : Coins)

omit hw in
theorem isolated_afterPaying : Isolated reads writes (afterPaying a amount) := by
  refine (Accounts.isolated_get? hr a).bind fun known => ?_
  cases known with
  | none => exact .throw _
  | some x =>
    dsimp only
    split
    · exact .throw _
    · exact .pure _

theorem isolated_afterReceiving : Isolated reads writes (afterReceiving a amount) := by
  refine (Accounts.isolated_getOrCreate hr hw a).bind fun x => ?_
  split
  · exact .throw _
  · exact .pure _

theorem isolated_subtract : Isolated reads writes (subtract a amount) :=
  (isolated_afterPaying hr a amount).bind fun x => (Accounts.isolated_put hw x).bind fun _ => .pure _

theorem isolated_add : Isolated reads writes (add a amount) :=
  (isolated_afterReceiving hr hw a amount).bind fun x =>
    (Accounts.isolated_put hw x).bind fun _ => .pure _

theorem isolated_send (target : Address) : Isolated reads writes (send a target amount) := by
  refine (isolated_afterPaying hr a amount).bind fun x => ?_
  split
  · exact .pure ()
  · exact (isolated_afterReceiving hr hw target amount).bind fun y =>
      (Accounts.isolated_put hw x).bind fun _ => Accounts.isolated_put hw y

theorem isolated_handle (m : Message) : Isolated reads writes (handle m) := by
  cases m with
  | send m => exact isolated_send hr hw m.sender m.amount m.recipient
  | _ => exact .throw _

end Bank

theorem Channels.isolated_handle (hp : .packets ∈ reads) (hq : .packets ∈ writes) (m : Message) :
    Isolated reads writes (handle m) := by
  have hword (k : Bytes) : Isolated reads writes (readWord k) :=
    (isolated_load (by decide) hp _ k).bind fun _ => .pure _
  cases m with
  | transfer m =>
    refine (Bank.isolated_subtract hr hw _ _).bind fun _ => Isolated.bind ?_ fun _ => .pure ()
    exact (hword _).bind fun _ => (isolated_save (by decide) hq _ _ _).bind fun _ =>
      (isolated_save (by decide) hq _ _ _).bind fun _ => .pure _
  | receive m =>
    refine (hword _).bind fun next => ?_
    split
    · exact .throw _
    · exact (Bank.isolated_add hr hw _ _).bind fun _ => isolated_save (by decide) hq _ _ _
  | _ => exact .throw _

namespace Staking

variable (hp : .bonds ∈ reads) (hq : .bonds ∈ writes)
include hp hq

theorem isolated_bond (a : Address) (publicKey : String) (stake : Coin) :
    Isolated reads writes (bond a publicKey stake) := by
  unfold bond
  split
  · exact .throw _
  · refine (Bank.isolated_subtract hr hw _ _).bind fun _ =>
      (isolated_load (by decide) hp _ _).bind fun known => ?_
    dsimp only
    split
    · exact .throw _
    · exact (isolated_save (by decide) hq _ _ _).bind fun _ => .pure _

theorem isolated_unbond (a : Address) : Isolated reads writes (unbond a) := by
  refine (isolated_load (by decide) hp _ _).bind fun known => ?_
  cases known with
  | none => exact .throw _
  | some b =>
    exact (isolated_erase (by decide) hq _).bind fun _ =>
      (Bank.isolated_add hr hw _ _).bind fun _ => .pure _

theorem isolated_handle (m : Message) : Isolated reads writes (handle m) := by
  cases m with
  | bond m => exact (isolated_bond hr hw hp hq _ _ _).bind fun _ => .pure ()
  | unbond m => exact (isolated_unbond hr hw hp hq _).bind fun _ => .pure ()
  | _ => exact .throw _

end Staking

namespace Mining

omit hr hw in
theorem isolated_read (hp : .work ∈ reads) (name : String) :
    Isolated reads writes (Mining.read name) := by
  refine (isolated_load (by decide) hp _ _).bind fun known => ?_
  cases known with
  | some n => exact .pure n
  | none => exact .throw _

omit hr hw in
theorem isolated_checkNext (hp : .work ∈ reads) (claimed : State) :
    Isolated reads writes (checkNext claimed) := by
  refine (isolated_read hp _).bind fun difficulty => (isolated_read hp _).bind fun count => ?_
  dsimp only
  split
  · exact .throw _
  · split
    · exact .throw _
    · exact .pure _

theorem isolated_handle (hp : .work ∈ reads) (hq : .work ∈ writes) (m : Message) :
    Isolated reads writes (handle m) := by
  cases m with
  | mine m =>
    exact (isolated_checkNext hp _).bind fun s => (Isolated.lift _).bind fun paid =>
      (Bank.isolated_add hr hw _ _).bind fun _ => (isolated_save (by decide) hq _ _ _).bind fun _ =>
        isolated_save (by decide) hq _ _ _
  | _ => exact .throw _

end Mining

namespace Trend

omit hr hw in
theorem isolated_current (hp : .main ∈ reads) : Isolated reads writes current := by
  refine (Exec.isolated_read (by decide) hp _).bind fun value => ?_
  split
  · exact .pure _
  · exact .throw _

theorem isolated_answer (hp : .main ∈ reads) (m : Quiz) : Isolated reads writes (answer m) := by
  refine ((isolated_current hp).map _).bind fun right => ?_
  split
  · refine isolated_mode.bind fun mode => ?_
    split
    · exact .pure ()
    · exact (Isolated.lift _).bind fun _ => (Bank.isolated_add hr hw _ _).bind fun _ => .pure ()
  · exact .throw _

theorem isolated_handle (hp : .main ∈ reads) (hq : .main ∈ writes) (m : Message) :
    Isolated reads writes (handle m) := by
  cases m with
  | setTrend m => exact isolated_write (by decide) hq _ _
  | quiz m => exact isolated_answer hr hw hp m
  | _ => exact .throw _

end Trend

namespace Admission

omit hw in
theorem isolated_account (a : Address) : Isolated reads writes (account a) := by
  refine (Accounts.isolated_get? hr a).bind fun known => ?_
  cases known with
  | some x => exact .pure x
  | none => exact .throw _

theorem isolated_authorize (signer : Address) (s : Signature) :
    Isolated reads writes (authorize signer s) :=
  (isolated_account hr signer).bind fun _ => (Isolated.lift _).bind fun y => Accounts.isolated_put hw y

variable (hp : .fees ∈ reads) (hq : .fees ∈ writes)
include hp hq

theorem isolated_charge (payer : Address) (fee : Coins) :
    Isolated reads writes (charge payer fee) := by
  unfold charge
  split
  · exact .pure ()
  · refine (isolated_account hr payer).bind fun x => ?_
    split
    · exact .throw _
    · exact (Accounts.isolated_put hw _).bind fun _ => (Fees.isolated_add hp hq fee).bind fun _ => .pure ()

theorem isolated_screen (hs : .parameters ∈ reads) (t : Transaction) :
    Isolated reads writes (screen t) := by
  have hsigned (e : Address × Signature) : Isolated reads writes (authorize e.1 e.2) :=
    isolated_authorize hr hw e.1 e.2
  refine (Accounts.isolated_parameters hs).bind fun p => (Isolated.lift _).bind fun _ =>
    (Isolated.forM hsigned _).bind fun _ => ?_
  cases t.signers.head? with
  | some payer => exact isolated_charge hr hw hp hq payer _
  | none => exact .pure ()

end Admission
end Accounts

/-! Transactions. -/

/-- The stores that transactions write to. -/
def StoreKey.transacted : List StoreKey := [main, accounts, work, packets, bonds, fees]

theorem Router.isolated_dispatch (route : String) (m : Message) :
    Isolated (.parameters :: transacted) transacted (standard.dispatch route m) := by
  unfold dispatch
  split
  · next h hh =>
    have hm : (route, h) ∈ standardRoutes :=
      OrderedMap.mem_of_mem_ofList ((OrderedMap.mem_entries_iff ..).mpr hh)
    simp only [standardRoutes, List.mem_cons, Prod.mk.injEq, List.not_mem_nil, or_false] at hm
    rcases hm with ⟨-, rfl⟩ | ⟨-, rfl⟩ | ⟨-, rfl⟩ | ⟨-, rfl⟩ | ⟨-, rfl⟩
    · exact Bank.isolated_handle (by decide) (by decide) m
    · exact Channels.isolated_handle (by decide) (by decide) (by decide) (by decide) m
    · exact Staking.isolated_handle (by decide) (by decide) (by decide) (by decide) m
    · exact Mining.isolated_handle (by decide) (by decide) (by decide) (by decide) m
    · exact Trend.isolated_handle (by decide) (by decide) (by decide) (by decide) m
  · exact .throw _

namespace App

variable {a b : App} {t : Transaction} {text : Bytes} {r : Response} {w : Writes}

theorem isolated_execute (hs : a.screen = Admission.screen) (t : Transaction) :
    Isolated (.parameters :: transacted) transacted (a.execute t) := by
  have hscreen : Isolated (.parameters :: transacted) transacted (a.screen t) := by
    rw [hs]
    exact Admission.isolated_screen (by decide) (by decide) (by decide) (by decide) (by decide) t
  have hone (m : Message) : Isolated (.parameters :: transacted) transacted (do
      Router.standard.dispatch m.route m
      return (m.route, m.tag)) :=
    (Router.isolated_dispatch m.route m).bind fun _ => .pure _
  refine (Isolated.lift _).bind fun _ => ?_
  split
  · exact .throw _
  · exact hscreen.bind fun _ => .mapM hone t.messages

/-- The writes of a transaction are what its context has gathered. -/
theorem writes_of_run {mode : Mode} (h : a.run mode text = .ok (r, some w)) :
    ∃ t events c, (a.execute t).run.run (a.context mode) = (.ok events, c) ∧ w = c.writes := by
  unfold run at h
  split at h
  · cases h
  · split at h
    · cases h
    · next t _ =>
      split at h
      · next events c hr =>
        cases h
        exact ⟨t, events, c, hr, rfl⟩
      · cases h
      · cases h

/-- Whatever is delivered, the stores that transactions do not write to keep their contents. -/
theorem contents_deliver (hs : a.screen = Admission.screen) (ha : a.store.Assembled)
    (h : a.deliver text = .ok (r, b)) {key : StoreKey} (hk : key ∈ application)
    (hn : key ∉ transacted) : b.store.contents key = a.store.contents key := by
  unfold deliver at h
  obtain ⟨⟨r', w⟩, hr, h⟩ := bind_eq_ok.mp h
  cases w with
  | none =>
    cases h
    rfl
  | some w =>
    obtain ⟨s, hs', h⟩ := bind_eq_ok.mp h
    cases h
    obtain ⟨t, events, c, hx, rfl⟩ := writes_of_run hr
    have hsound : (a.context .deliver).Sound := Context.sound_new ha a.currentHeader .deliver
    obtain ⟨_, d, hd, hfits, -, hframe⟩ := (isolated_execute hs t).frame hsound
    rw [hx] at hd
    cases hd
    obtain ⟨s', hw, -, hcontents⟩ := ha.write hfits
    rw [hw] at hs'
    cases hs'
    have hother : ∀ key ∈ application, key ∉ transacted → ∀ k ∈ transacted, k.name ≠ key.name := by
      decide
    rw [hcontents key hk, hframe key.name (hother key hk hn)]
    rfl

end App

/-- The handlers keep to the stores of their modules, in any mode and for any message, and admission
to the accounts and the fees: what they answer and write depends on nothing else but, for
admission, the parameters. No transaction changes the parameters or marks one as changed. -/
theorem modules_isolated :
    (∀ m, Isolated [.accounts] [.accounts] (Bank.handle m)) ∧
      (∀ m, Isolated [.packets, .accounts] [.packets, .accounts] (Channels.handle m)) ∧
      (∀ m, Isolated [.bonds, .accounts] [.bonds, .accounts] (Staking.handle m)) ∧
      (∀ m, Isolated [.work, .accounts] [.work, .accounts] (Mining.handle m)) ∧
      (∀ m, Isolated [.main, .accounts] [.main, .accounts] (Trend.handle m)) ∧
      (∀ t, Isolated [.accounts, .fees, .parameters] [.accounts, .fees] (Admission.screen t)) ∧
      ∀ (a b : App) (text : Bytes) (r : Response), a.screen = Admission.screen →
        a.store.Assembled → a.deliver text = .ok (r, b) →
        b.store.contents .parameters = a.store.contents .parameters ∧
          b.store.contents .changedParameters = a.store.contents .changedParameters := by
  refine ⟨fun m => ?_, fun m => ?_, fun m => ?_, fun m => ?_, fun m => ?_, fun t => ?_,
    fun a b text r hs ha h => ?_⟩
  · exact Bank.isolated_handle (by decide) (by decide) m
  · exact Channels.isolated_handle (by decide) (by decide) (by decide) (by decide) m
  · exact Staking.isolated_handle (by decide) (by decide) (by decide) (by decide) m
  · exact Mining.isolated_handle (by decide) (by decide) (by decide) (by decide) m
  · exact Trend.isolated_handle (by decide) (by decide) (by decide) (by decide) m
  · exact Admission.isolated_screen (by decide) (by decide) (by decide) (by decide) (by decide) t
  · exact ⟨App.contents_deliver hs ha h (by decide) (by decide),
      App.contents_deliver hs ha h (by decide) (by decide)⟩

namespace App.Sample

/-- A database in which the collected fees cannot be read. -/
def unreadableFees : Database := OrderedMap.insert ∅ "fee" (OrderedMap.insert ∅ Fees.key [255])

end App.Sample

/-- A trend is set the same over fees that cannot be read, and a fee is paid from an account. -/
theorem modules_isolated_answer :
    (∃ c c' : Context, c.Sound ∧ c'.Sound ∧ c'.contents .fees ≠ c.contents .fees ∧
      ∃ r d d', (Trend.handle (.setTrend ⟨App.Sample.holder, "warm"⟩)).run.run c = (r, d) ∧
        (Trend.handle (.setTrend ⟨App.Sample.holder, "warm"⟩)).run.run c' = (r, d') ∧
        ∀ name, d'.writes.of name = d.writes.of name) ∧
    ∃ (a b : App) (r : Response), a.screen = Admission.screen ∧ a.store.Assembled ∧
      a.deliver App.Sample.answerText = .ok (r, b) ∧
      b.store.contents .parameters = a.store.contents .parameters := by
  obtain ⟨-, -, -, -, htrend, -, hdeliver⟩ := modules_isolated
  refine ⟨?_, ?_⟩
  · have hc := Context.sound_new (assembled_openedOn ∅ .initial) ⟨"", 0⟩ .deliver
    have hc' := Context.sound_new (assembled_openedOn App.Sample.unreadableFees .initial) ⟨"", 0⟩ .deliver
    refine ⟨_, _, hc, hc', by decide +kernel, ?_⟩
    obtain ⟨r, w, d, d', hr, hr', hd, hd', -⟩ := htrend _ _ _ hc hc' ⟨rfl, by decide +kernel⟩
    refine ⟨r, d, d', hr, hr', fun name => ?_⟩
    rw [hd.writes_of, hd'.writes_of]
    rfl
  · obtain ⟨a, b, ha, -, hp, -⟩ := App.Sample.run
    obtain ⟨⟨r, b'⟩, hr, rfl⟩ := map_eq_ok.mp hp
    obtain ⟨_, l, -, -, hl, -⟩ := ha.holds
    exact ⟨a, b', r, hl.screen, hl.assembled, hr, (hdeliver a b' _ r hl.screen hl.assembled hr).1⟩

end Appchain
