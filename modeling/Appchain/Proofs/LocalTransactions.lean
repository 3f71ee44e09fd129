import Appchain.Proofs.Steps

/-!
# Local transactions

Messages that send, bond or release a bond are carried out as steps at the addresses
that they name, as long as these have accounts. So are the signatures and the fee of
a transaction, and a transaction of such messages is the steps of its parts.
-/

namespace Appchain

open Outcome

namespace Message

/-- A message that moves coins or stakes of the addresses that it names. -/
def IsLocal : Message → Prop
  | send _ | bond _ | unbond _ => True
  | _ => False

/-- The addresses whose accounts and bonds a message is about. -/
def parties : Message → List Address
  | send m => [m.sender, m.recipient]
  | receive m => [m.relayer, m.packet.recipient]
  | m => [m.signer]

/-- The steps of a local message. -/
def steps : Message → List Step
  | send m =>
    if m.sender = m.recipient then [.change m.sender (.affords m.sender m.amount)]
    else
      [.change m.sender (.pays m.sender m.amount),
        .change m.recipient (.gains m.recipient m.amount)]
  | bond m => [.change m.holder (.stakes m)]
  | unbond m => [.change m.holder (.releases m.holder)]
  | _ => []

theorem signer_mem_parties (m : Message) : m.signer ∈ m.parties := by
  cases m <;> exact List.mem_cons_self ..

theorem within_of_mem_steps {m : Message} {s : Step} (hs : s ∈ m.steps) : s.Within m.parties := by
  cases m with
  | send m =>
    simp only [steps] at hs
    split at hs
    · rw [List.mem_singleton.mp hs]
      exact List.mem_cons_self ..
    · rcases List.mem_cons.mp hs with rfl | hs
      · exact List.mem_cons_self ..
      · rw [List.mem_singleton.mp hs]
        exact List.mem_cons_of_mem _ (List.mem_cons_self ..)
  | bond m =>
    rw [List.mem_singleton.mp hs]
    exact List.mem_cons_self ..
  | unbond m =>
    rw [List.mem_singleton.mp hs]
    exact List.mem_cons_self ..
  | _ => exact absurd hs List.not_mem_nil

end Message

namespace Transaction

variable {t : Transaction}

/-- The addresses whose accounts and bonds a transaction is about. -/
def parties (t : Transaction) : List Address := t.messages.flatMap Message.parties

def feeSteps (t : Transaction) : List Step :=
  match t.signers.head? with
  | none => []
  | some payer =>
    if t.fee.amount.isEmpty then []
    else [.change payer (.pays payer t.fee.amount), .collect t.fee.amount]

def screenSteps (t : Transaction) : List Step :=
  (t.signed.flatMap fun e => [.change e.1 (.signs e.1 e.2)]) ++ t.feeSteps

/-- The steps of a transaction of local messages. -/
def steps (t : Transaction) : List Step := t.screenSteps ++ t.messages.flatMap Message.steps

theorem mem_parties_of_mem_signers {p : Address} (h : p ∈ t.signers) : p ∈ t.parties := by
  obtain ⟨m, hm, rfl⟩ := mem_signers_iff.mp h
  exact List.mem_flatMap.mpr ⟨m, hm, m.signer_mem_parties⟩

theorem mem_signers_of_mem_signed {e : Address × Signature} (h : e ∈ t.signed) : e.1 ∈ t.signers :=
  (List.of_mem_zip h).1

theorem within_of_mem_feeSteps {s : Step} (hs : s ∈ t.feeSteps) : s.Within t.parties := by
  unfold feeSteps at hs
  split at hs
  · exact absurd hs List.not_mem_nil
  · next payer hp =>
    split at hs
    · exact absurd hs List.not_mem_nil
    · rcases List.mem_cons.mp hs with rfl | hs
      · exact mem_parties_of_mem_signers (List.mem_of_mem_head? hp)
      · rw [List.mem_singleton.mp hs]
        trivial

theorem within_of_mem_steps {s : Step} (hs : s ∈ t.steps) : s.Within t.parties := by
  rcases List.mem_append.mp hs with hs | hs
  · rcases List.mem_append.mp hs with hs | hs
    · obtain ⟨e, he, hs⟩ := List.mem_flatMap.mp hs
      rw [List.mem_singleton.mp hs]
      exact mem_parties_of_mem_signers (mem_signers_of_mem_signed he)
    · exact within_of_mem_feeSteps hs
  · obtain ⟨m, hm, hs⟩ := List.mem_flatMap.mp hs
    exact (Message.within_of_mem_steps hs).mono fun p hp => List.mem_flatMap.mpr ⟨m, hm, hp⟩

end Transaction

namespace Ledger

variable {l k n : Ledger} {p : Address} {who : List Address}

/-- Everybody has an account, and what they have is theirs. -/
def Seats (l : Ledger) (who : List Address) : Prop :=
  ∀ p ∈ who, ∃ e, l.estate? p = some e ∧ e.Fits p

theorem Seats.step (h : l.Seats who) {s : Step} (hs : l.step s = some n) : n.Seats who := by
  cases s with
  | collect fee =>
    obtain ⟨total, -, rfl⟩ := Option.map_eq_some_iff.mp hs
    exact h
  | change p c =>
    obtain ⟨e', hc, rfl⟩ := Option.map_eq_some_iff.mp hs
    obtain ⟨e, he, hc⟩ := Option.bind_eq_some_iff.mp hc
    intro q hq
    obtain ⟨d, hd, hf⟩ := h q hq
    by_cases hqp : q = p
    · subst hqp
      rw [he] at hd
      cases hd
      exact ⟨e', estate?_endow_self .., c.fits e e' hf hc⟩
    · exact ⟨d, (estate?_endow_of_ne hqp).trans hd, hf⟩

theorem Seats.walk (h : l.Seats who) {ss : List Step} (hs : l.walk ss = some n) : n.Seats who :=
  walk_preserves (P := fun k => k.Seats who) (fun _ _ _ hk hn => hk.step hn) h hs

theorem parameters_step {s : Step} (hs : l.step s = some n) : n.parameters = l.parameters := by
  cases s with
  | collect fee =>
    obtain ⟨total, -, rfl⟩ := Option.map_eq_some_iff.mp hs
    rfl
  | change p c =>
    obtain ⟨e, -, rfl⟩ := Option.map_eq_some_iff.mp hs
    rfl

theorem parameters_walk {ss : List Step} (hs : l.walk ss = some n) :
    n.parameters = l.parameters :=
  walk_preserves (P := fun k => k.parameters = l.parameters)
    (fun _ _ _ hk hn => (parameters_step hn).trans hk) rfl hs

/-- Where everybody in `who` has an account, an operation succeeds with what the steps lead to. -/
def Follows (who : List Address) (op : Ledger → Except TxError Ledger) (ss : List Step) : Prop :=
  ∀ l n : Ledger, l.Seats who → (op l = .ok n ↔ l.walk ss = some n)

namespace Follows

variable {op op' : Ledger → Except TxError Ledger} {ss ss' : List Step}

theorem nil : Follows who .ok [] := by
  intro l n _
  exact ok_eq_ok.trans (by simp [Ledger.walk, eq_comm])

theorem bind (h : Follows who op ss) (h' : Follows who op' ss') :
    Follows who (fun l => op l >>= op') (ss ++ ss') := by
  intro l n hl
  rw [bind_eq_ok, walk_append, Option.bind_eq_some_iff]
  refine exists_congr fun k => ?_
  rw [h l k hl]
  exact and_congr_right fun hk => h' k n (hl.walk hk)

theorem foldlM {α : Type} {f : Ledger → α → Except TxError Ledger} {g : α → List Step}
    {as : List α} (h : ∀ a ∈ as, Follows who (fun l => f l a) (g a)) :
    Follows who (fun l => as.foldlM f l) (as.flatMap g) := by
  induction as with
  | nil => exact .nil
  | cons a as ih =>
    simp only [List.foldlM_cons, List.flatMap_cons]
    obtain ⟨ha, has⟩ := List.forall_mem_cons.mp h
    exact ha.bind (ih has)

theorem congr (h : Follows who op ss)
    (he : ∀ l n : Ledger, l.Seats who → (op' l = .ok n ↔ op l = .ok n)) : Follows who op' ss := by
  intro l n hl
  exact (he l n hl).trans (h l n hl)

end Follows

theorem Seats.exists_account (h : l.Seats who) (hp : p ∈ who) :
    ∃ x, l.accounts.get? p = some x ∧ l.estate? p = some ⟨x, l.bonds.get? p⟩ ∧
      Estate.Fits ⟨x, l.bonds.get? p⟩ p := by
  obtain ⟨e, he, hf⟩ := h p hp
  obtain ⟨x, hx, rfl⟩ := Option.map_eq_some_iff.mp he
  exact ⟨x, hx, he, hf⟩

theorem put_eq_endow {y : Account} (hy : y.address = p) :
    l.put y = l.endow p ⟨y, l.bonds.get? p⟩ := by
  unfold put endow
  rw [hy]
  simp only [OrderedMap.set_get?]

/-- An operation on one account is a step. -/
theorem follows_ofAccount {op : Ledger → Except TxError Ledger} {f : Account → Option Account}
    {hf : ∀ x y, f x = some y → y.address = x.address} (hp : p ∈ who)
    (h : ∀ l n : Ledger, l.Seats who →
      (op l = .ok n ↔ ∃ x y, l.accounts.get? p = some x ∧ f x = some y ∧ n = l.put y)) :
    Follows who op [.change p (.ofAccount p f hf)] := by
  intro l n hl
  obtain ⟨x, hx, he, hfits⟩ := hl.exists_account hp
  rw [h l n hl, walk_singleton, step_change, he, Option.bind_some]
  change _ ↔ ((f x).map _).map _ = some n
  cases hy : f x with
  | none => simp [hx, hy]
  | some y => simp [hx, hy, put_eq_endow ((hf x y hy).trans hfits.account), eq_comm]

theorem follows_authorize (hp : p ∈ who) (g : Signature) :
    Follows who (fun l => l.authorize p g) [.change p (.signs p g)] :=
  follows_ofAccount hp fun l n _ => by simp only [authorize_eq_ok, toOption_eq_some]

theorem follows_ofCoins {op : Ledger → Except TxError Ledger} {f : Coins → Option Coins}
    (hp : p ∈ who)
    (h : ∀ l n : Ledger, l.Seats who → (op l = .ok n ↔
      ∃ x c, l.accounts.get? p = some x ∧ f x.coins = some c ∧ n = l.put (x.withCoins c))) :
    Follows who op [.change p (.ofCoins p f)] :=
  follows_ofAccount hp fun l n hl => by
    rw [h l n hl]
    simp only [Option.map_eq_some_iff]
    constructor
    · rintro ⟨x, c, hx, hc, rfl⟩
      exact ⟨x, _, hx, ⟨c, hc, rfl⟩, rfl⟩
    · rintro ⟨x, _, hx, ⟨c, hc, rfl⟩, rfl⟩
      exact ⟨x, c, hx, hc, rfl⟩

theorem follows_debit (hp : p ∈ who) (amount : Coins) :
    Follows who (fun l => l.debit p amount) [.change p (.pays p amount)] :=
  follows_ofCoins hp fun _ _ _ => debit_eq_ok

/-- The account of somebody who has one. -/
theorem getOrCreate_of_get? {x : Account} (hx : l.accounts.get? p = some x) :
    l.getOrCreate p = (x, l) := by
  unfold getOrCreate
  rw [hx]

theorem follows_credit (hp : p ∈ who) (amount : Coins) :
    Follows who (fun l => l.credit p amount) [.change p (.gains p amount)] :=
  follows_ofCoins hp fun l n hl => by
    obtain ⟨x, hx, -, -⟩ := hl.exists_account hp
    rw [credit_eq_ok, getOrCreate_of_get? hx]
    simp only [hx, Option.some.injEq, exists_and_left, exists_eq_left']

theorem follows_send {m : Send} (hm : ∀ p ∈ (Message.send m).parties, p ∈ who) :
    Follows who (fun l => l.send m.sender m.recipient m.amount) (Message.steps (.send m)) := by
  have hsender : m.sender ∈ who := hm _ (List.mem_cons_self ..)
  have hrecipient : m.recipient ∈ who := hm _ (List.mem_cons_of_mem _ (List.mem_cons_self ..))
  by_cases hself : m.sender = m.recipient
  · simp only [Message.steps, if_pos hself]
    refine follows_ofCoins hsender fun l n hl => ?_
    obtain ⟨x, hx, -, hfits⟩ := hl.exists_account hsender
    have hput : l.put (x.withCoins x.coins) = l := by
      unfold put
      rw [Account.withCoins_coins, hfits.account, OrderedMap.insert_eq_self hx]
    simp only [send_eq_ok, if_pos hself, paying_eq_ok, Option.map_eq_some_iff, hx]
    constructor
    · rintro ⟨_, ⟨x', rest, ⟨⟩, hr, -⟩, rfl⟩
      exact ⟨x, x.coins, rfl, ⟨rest, hr, rfl⟩, hput.symm⟩
    · rintro ⟨x', _, ⟨⟩, ⟨rest, hr, rfl⟩, rfl⟩
      exact ⟨_, ⟨x, rest, rfl, hr, rfl⟩, hput⟩
  · simp only [Message.steps, if_neg hself]
    refine ((follows_debit hsender m.amount).bind (follows_credit hrecipient m.amount)).congr
      fun l n hl => ?_
    obtain ⟨x, hx, -, hfits⟩ := hl.exists_account hsender
    rw [bind_eq_ok, send_eq_ok_of_ne hself]
    intro y hy
    rw [hx] at hy
    cases hy
    exact hfits.account

theorem follows_bond {m : BondStake} (hm : m.holder ∈ who) :
    Follows who (fun l => l.bond m) [.change m.holder (.stakes m)] := by
  intro l n hl
  obtain ⟨x, hx, he, hfits⟩ := hl.exists_account hm
  have hendow (rest : Coins) (power : UInt64) :
      (l.put (x.withCoins rest)).putBond { l.bondOf m with power } =
        l.endow m.holder ⟨x.withCoins rest, some { l.bondOf m with power }⟩ := by
    unfold put putBond endow
    rw [Account.address_withCoins, hfits.account]
    simp only [show (l.bondOf m).holder = m.holder from hfits.holder_bondOf]
    rfl
  rw [walk_singleton, step_change, he, Option.bind_some, Option.map_eq_some_iff]
  simp only [bond_eq_ok, debit_eq_ok, Change.stakes, Estate.stake_eq_some, hx]
  constructor
  · rintro ⟨hd, _, power, ⟨x', rest, ⟨⟩, hr, rfl⟩, hp, rfl⟩
    exact ⟨_, ⟨hd, rest, power, hr, hp, rfl⟩, (hendow rest power).symm⟩
  · rintro ⟨_, ⟨hd, rest, power, hr, hp, rfl⟩, rfl⟩
    exact ⟨hd, _, power, ⟨x, rest, rfl, hr, rfl⟩, hp, (hendow rest power).symm⟩

theorem follows_unbond (hp : p ∈ who) :
    Follows who (fun l => l.unbond p) [.change p (.releases p)] := by
  intro l n hl
  obtain ⟨x, hx, he, hfits⟩ := hl.exists_account hp
  have hendow (total : Coins) : put { l with bonds := l.bonds.erase p } (x.withCoins total) =
      l.endow p ⟨x.withCoins total, none⟩ := by
    unfold put endow
    rw [Account.address_withCoins, hfits.account]
    rfl
  have hcreate : getOrCreate { l with bonds := l.bonds.erase p } p =
      (x, { l with bonds := l.bonds.erase p }) := getOrCreate_of_get? hx
  rw [walk_singleton, step_change, he, Option.bind_some, Option.map_eq_some_iff]
  simp only [unbond_eq_ok, credit_eq_ok, hcreate, Change.releases, Estate.release_eq_some, hendow]
  constructor
  · rintro ⟨b, hb, total, ht, rfl⟩
    exact ⟨_, ⟨b, total, hb, ht, rfl⟩, rfl⟩
  · rintro ⟨_, ⟨b, total, hb, ht, rfl⟩, rfl⟩
    exact ⟨b, hb, total, ht, rfl⟩

/-- A local message is carried out as its steps. -/
theorem follows_apply {m : Message} (hlocal : m.IsLocal) (hm : ∀ p ∈ m.parties, p ∈ who)
    (mode : Mode) : Follows who (fun l => l.apply mode m) m.steps := by
  cases m with
  | send m => exact follows_send hm
  | bond m => exact follows_bond (hm m.holder (List.mem_cons_self ..))
  | unbond m => exact follows_unbond (hm m.holder (List.mem_cons_self ..))
  | _ => exact hlocal.elim

theorem follows_addFee (fee : Coins) : Follows who (fun l => l.addFee fee) [.collect fee] := by
  intro l n _
  rw [walk_singleton, step_collect, addFee_eq_ok]
  simp only [Option.map_eq_some_iff, @eq_comm _ n]

theorem follows_charge (hp : p ∈ who) (fee : Coins) : Follows who (fun l => l.charge p fee)
    (if fee.isEmpty then [] else [.change p (.pays p fee), .collect fee]) := by
  by_cases hf : fee.isEmpty = true
  · rw [if_pos hf]
    refine Follows.nil.congr fun l n _ => ?_
    rw [charge_eq_ok, if_pos hf, ok_eq_ok]
  · rw [if_neg hf]
    refine ((follows_debit hp fee).bind (follows_addFee fee)).congr fun l n _ => ?_
    rw [charge_eq_ok, if_neg hf, bind_eq_ok]

variable {t u : Transaction} {mode : Mode}

/-- A transaction passes as the steps of its signatures and of its fee. -/
theorem screen_eq_ok_iff_walk (hl : l.Seats who) (ht : ∀ p ∈ t.parties, p ∈ who) :
    l.screen t = .ok n ↔
      Admission.checkLimits l.parameters t = .ok () ∧ l.walk t.screenSteps = some n := by
  have hsigned : Follows who (fun l => t.signed.foldlM (fun l e => l.authorize e.1 e.2) l)
      (t.signed.flatMap fun e => [.change e.1 (.signs e.1 e.2)]) :=
    .foldlM fun e he => follows_authorize
      (ht _ (Transaction.mem_parties_of_mem_signers (Transaction.mem_signers_of_mem_signed he))) e.2
  rw [screen_eq_ok, Transaction.screenSteps, walk_append, Option.bind_eq_some_iff]
  refine and_congr_right fun _ => exists_congr fun k => ?_
  rw [← hsigned l k hl]
  refine and_congr_right fun hk => ?_
  have hseats : k.Seats who := hl.walk ((hsigned l k hl).mp hk)
  unfold Transaction.feeSteps
  cases hp : t.signers.head? with
  | none => exact ok_eq_ok.symm.trans (Follows.nil k n hseats)
  | some payer =>
    have hpayer : payer ∈ who :=
      ht _ (Transaction.mem_parties_of_mem_signers (List.mem_of_mem_head? hp))
    exact follows_charge hpayer t.fee.amount k n hseats

/-- A transaction of local messages is carried out as its steps if nothing is wrong with its form
and its size. -/
theorem execute_eq_ok_iff_walk (hl : l.Seats who) (ht : ∀ p ∈ t.parties, p ∈ who)
    (hlocal : ∀ m ∈ t.messages, m.IsLocal) :
    l.execute mode t = .ok n ↔
      t.check = .ok () ∧ Admission.checkLimits l.parameters t = .ok () ∧
        l.walk t.steps = some n := by
  have hmessages : Follows who (fun l => t.messages.foldlM (fun l m => l.apply mode m) l)
      (t.messages.flatMap Message.steps) :=
    .foldlM fun m hm =>
      follows_apply (hlocal m hm) (fun p hp => ht p (List.mem_flatMap.mpr ⟨m, hm, hp⟩)) mode
  rw [execute_eq_ok, Transaction.steps, walk_append, Option.bind_eq_some_iff]
  simp only [screen_eq_ok_iff_walk hl ht, and_assoc, exists_and_left]
  refine and_congr_right fun _ => and_congr_right fun _ => exists_congr fun k => ?_
  exact and_congr_right fun hk => hmessages k n (hl.walk hk)

/-- Two transactions of local messages that have no party in common may change places. -/
theorem execute_comm (hl : l.Seats (t.parties ++ u.parties))
    (hd : ∀ p ∈ t.parties, p ∉ u.parties) (ht : ∀ m ∈ t.messages, m.IsLocal)
    (hu : ∀ m ∈ u.messages, m.IsLocal) (hk : l.execute mode t = .ok k)
    (hn : k.execute mode u = .ok n) :
    ∃ j, l.execute mode u = .ok j ∧ j.execute mode t = .ok n := by
  have hleft : ∀ p ∈ t.parties, p ∈ t.parties ++ u.parties := fun p => List.mem_append_left _
  have hright : ∀ p ∈ u.parties, p ∈ t.parties ++ u.parties := fun p => List.mem_append_right _
  obtain ⟨htcheck, htlimits, htwalk⟩ := (execute_eq_ok_iff_walk hl hleft ht).mp hk
  obtain ⟨hucheck, hulimits, huwalk⟩ := (execute_eq_ok_iff_walk (hl.walk htwalk) hright hu).mp hn
  have hcomm : ((l.walk t.steps).bind fun k => k.walk u.steps) =
      (l.walk u.steps).bind fun k => k.walk t.steps :=
    walk_comm (fun s hs s' hs' => Step.apart_of_disjoint hd
      (Transaction.within_of_mem_steps hs) (Transaction.within_of_mem_steps hs')) l
  rw [htwalk, Option.bind_some, huwalk] at hcomm
  obtain ⟨j, hj, hjwalk⟩ := Option.bind_eq_some_iff.mp hcomm.symm
  -- The limits are parameters, which no step changes.
  rw [parameters_walk htwalk] at hulimits
  rw [← parameters_walk hj] at htlimits
  exact ⟨j, (execute_eq_ok_iff_walk hl hright hu).mpr ⟨hucheck, hulimits, hj⟩,
    (execute_eq_ok_iff_walk (hl.walk hj) hleft ht).mpr ⟨htcheck, htlimits, hjwalk⟩⟩

theorem WellFormed.seats (h : l.WellFormed) (hw : ∀ p ∈ who, ∃ x, l.accounts.get? p = some x) :
    l.Seats who := by
  intro p hp
  obtain ⟨x, hx⟩ := hw p hp
  refine ⟨⟨x, l.bonds.get? p⟩, ?_, (h.accounts p x hx).address_eq, fun b hb => (h.bonds p b hb).1⟩
  unfold estate?
  rw [hx]
  rfl

end Ledger
end Appchain
