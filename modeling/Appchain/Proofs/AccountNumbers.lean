import Appchain.Proofs.LoadedGenesis
import Appchain.Proofs.ReissuedAccounts

/-!
# Account numbers

The accounts of a chain are numbered without gaps in the order in which they were
created: those of the document first, then one for whoever is paid without having
an account. The counter is always at the number of accounts, because whatever takes
a number stores the account, or else is undone with it.
-/

namespace Appchain

open Outcome

/-- Who is paid by a message, and so has an account afterwards. -/
def Message.payee : Message → Option Address
  | .send m => some m.recipient
  | .receive m => some m.packet.recipient
  | .unbond m => some m.holder
  | .mine m => some m.sender
  | .quiz m => some m.sender
  | .transfer _ | .bond _ | .setTrend _ => none

def Transaction.payees (t : Transaction) : List Address :=
  t.messages.flatMap fun m => m.payee.toList

/-- An order of creation goes on with an address that is not in it yet. -/
def enlist (order : List Address) (a : Address) : List Address :=
  if a ∈ order then order else order ++ [a]

/-- The addresses that have accounts, in the order in which these were created. -/
def Genesis.enrolled (g : Genesis) (ts : List Transaction) : List Address :=
  (ts.flatMap Transaction.payees).foldl enlist (g.accounts.map GenesisAccount.holder)

theorem prefix_foldl_enlist (as order : List Address) : order <+: as.foldl enlist order := by
  induction as generalizing order with
  | nil => exact List.prefix_rfl
  | cons a as ih =>
    refine List.IsPrefix.trans ?_ (ih (enlist order a))
    unfold enlist
    split
    · exact List.prefix_rfl
    · exact List.prefix_append order [a]

namespace Genesis

variable {g : Genesis} {ts us : List Transaction}

theorem enrolled_append :
    g.enrolled (ts ++ us) = (us.flatMap Transaction.payees).foldl enlist (g.enrolled ts) := by
  unfold enrolled
  rw [List.flatMap_append, List.foldl_append]

theorem enrolled_prefix : g.enrolled ts <+: g.enrolled (ts ++ us) :=
  enrolled_append ▸ prefix_foldl_enlist _ _

end Genesis

namespace Ledger

variable {l k n : Ledger} {order : List Address} {a : Address} {amount : Coins} {x y : Account}

/-- The accounts are those of the listed addresses, numbered by their places, and the next number
is how many there are. -/
structure Enrols (l : Ledger) (order : List Address) : Prop where
  nodup : order.Nodup
  account : ∀ i (h : i < order.length), ∃ x, l.accounts.get? order[i] = some x ∧ x.number = .ofNat i
  no_account : ∀ p, p ∉ order → l.accounts.get? p = none
  counter_eq : l.counter = if order = [] then none else some (.ofNat order.length)

namespace Enrols

theorem of_same (h : l.Enrols order) (ha : n.accounts = l.accounts) (hc : n.counter = l.counter) :
    n.Enrols order where
  nodup := h.nodup
  account := ha ▸ h.account
  no_account := ha ▸ h.no_account
  counter_eq := hc ▸ h.counter_eq

theorem mem_of_get? (h : l.Enrols order) (hx : l.accounts.get? a = some x) : a ∈ order := by
  apply Classical.byContradiction
  intro ha
  rw [h.no_account a ha] at hx
  cases hx

theorem next_eq (h : l.Enrols order) : l.counter.getD 0 = .ofNat order.length := by
  rw [h.counter_eq]
  split
  · next he =>
    rw [he]
    rfl
  · rfl

/-- An account is replaced by one with the same number. -/
theorem put (h : l.Enrols order) (hx : l.accounts.get? a = some x) (hy : y.address = a)
    (hn : y.number = x.number) : (l.put y).Enrols order where
  nodup := h.nodup
  account i hi := by
    obtain ⟨z, hz, hnumber⟩ := h.account i hi
    unfold Ledger.put
    rw [OrderedMap.get?_insert, hy]
    split
    · next he =>
      rw [he, hx] at hz
      cases hz
      exact ⟨y, rfl, hn.trans hnumber⟩
    · exact ⟨z, hz, hnumber⟩
  no_account p hp := by
    have hne : p ≠ a := by
      rintro rfl
      exact hp (h.mem_of_get? hx)
    unfold Ledger.put
    rw [OrderedMap.get?_insert, hy, if_neg hne]
    exact h.no_account p hp
  counter_eq := h.counter_eq

/-- A new account is stored with the number that was taken for it. -/
theorem create (h : l.Enrols order) (ha : a ∉ order) (hy : y.address = a)
    (hn : y.number = l.counter.getD 0) : ((l.create a).2.put y).Enrols (order ++ [a]) where
  nodup := by
    rw [List.nodup_append]
    refine ⟨h.nodup, List.nodup_singleton a, fun p hp q hq he => ha ?_⟩
    rw [← List.mem_singleton.mp hq, ← he]
    exact hp
  account i hi := by
    change ∃ x, (l.accounts.insert y.address y).get? _ = some x ∧ _
    rw [OrderedMap.get?_insert, hy]
    by_cases hlast : i < order.length
    · obtain ⟨x, hx, hnumber⟩ := h.account i hlast
      have hne : order[i] ≠ a := fun he => ha (he ▸ List.getElem_mem hlast)
      rw [List.getElem_append_left hlast, if_neg hne]
      exact ⟨x, hx, hnumber⟩
    · obtain rfl : i = order.length := by
        rw [List.length_append, List.length_singleton] at hi
        omega
      have he : (order ++ [a])[order.length] = a := by simp
      rw [if_pos he]
      exact ⟨y, rfl, hn.trans h.next_eq⟩
  no_account p hp := by
    obtain ⟨hp, hne⟩ := not_or.mp (mt List.mem_append.mpr hp)
    change (l.accounts.insert y.address y).get? p = none
    rw [OrderedMap.get?_insert, hy, if_neg (mt List.mem_singleton.mpr hne)]
    exact h.no_account p hp
  counter_eq := by
    change some (l.counter.getD 0 + 1) = _
    rw [h.next_eq, if_neg (List.concat_ne_nil a order), List.length_append, List.length_singleton,
      UInt64.ofNat_add]
    rfl

theorem debit (h : l.Enrols order) (hf : AccountsFit l.accounts) (hd : l.debit a amount = .ok n) :
    n.Enrols order := by
  obtain ⟨x, rest, hx, -, rfl⟩ := debit_eq_ok.mp hd
  have hy : (x.withCoins rest).address = a := (Account.address_withCoins rest x).trans (hf a x hx).address_eq
  exact h.put hx hy (Account.number_withCoins rest x)

/-- Whoever is paid keeps the number or gets the next one. -/
theorem credit (h : l.Enrols order) (hf : AccountsFit l.accounts)
    (hc : l.credit a amount = .ok n) : n.Enrols (enlist order a) := by
  obtain ⟨total, -, rfl⟩ := credit_eq_ok.mp hc
  unfold getOrCreate enlist
  cases hx : l.accounts.get? a with
  | some x =>
    have hy : (x.withCoins total).address = a :=
      (Account.address_withCoins total x).trans (hf a x hx).address_eq
    rw [if_pos (h.mem_of_get? hx)]
    exact h.put hx hy (Account.number_withCoins total x)
  | none =>
    have ha : a ∉ order := by
      intro ha
      obtain ⟨i, hi, rfl⟩ := List.mem_iff_getElem.mp ha
      obtain ⟨x, hx', -⟩ := h.account i hi
      rw [hx] at hx'
      cases hx'
    rw [if_neg ha]
    exact h.create ha rfl rfl

theorem reward (h : l.Enrols order) (hf : AccountsFit l.accounts) {coin : Coin}
    (hr : l.reward a coin = .ok n) : n.Enrols (enlist order a) := by
  obtain ⟨paid, -, hc⟩ := reward_eq_ok.mp hr
  exact h.credit hf hc

/-- Who sends to himself has an account already. -/
theorem send (h : l.Enrols order) (hf : AccountsFit l.accounts) {target : Address}
    (hs : l.send a target amount = .ok n) : n.Enrols (enlist order target) := by
  by_cases he : a = target
  · obtain ⟨payer, hp, hs⟩ := send_eq_ok.mp hs
    obtain ⟨x, rest, hx, -, -⟩ := paying_eq_ok.mp hp
    rw [if_pos he] at hs
    rw [hs, enlist, if_pos (he ▸ h.mem_of_get? hx)]
    exact h
  · obtain ⟨k, hd, hc⟩ := debit_credit_of_send hf he hs
    exact (h.debit hf hd).credit (hf.debit hd) hc

theorem apply (h : l.Enrols order) (hf : AccountsFit l.accounts) {m : Message}
    (ha : l.apply .deliver m = .ok n) : n.Enrols (m.payee.toList.foldl enlist order) := by
  cases m with
  | send m => exact h.send hf ha
  | transfer m =>
    obtain ⟨k, hk, rfl⟩ := transfer_eq_ok.mp ha
    exact (h.debit hf hk).of_same rfl rfl
  | receive m =>
    obtain ⟨-, k, hk, rfl⟩ := receive_eq_ok.mp ha
    exact (h.credit hf hk).of_same rfl rfl
  | bond m =>
    obtain ⟨-, k, power, hk, -, rfl⟩ := bond_eq_ok.mp ha
    exact (h.debit hf hk).of_same rfl rfl
  | unbond m =>
    obtain ⟨b, -, hc⟩ := unbond_eq_ok.mp ha
    exact (h.of_same (n := { l with bonds := l.bonds.erase m.holder }) rfl rfl).credit hf hc
  | mine m =>
    obtain ⟨w, k, -, hk, rfl⟩ := mine_eq_ok.mp ha
    exact (h.reward hf hk).of_same rfl rfl
  | setTrend m =>
    cases ha
    exact h.of_same rfl rfl
  | quiz m =>
    obtain ⟨-, hr⟩ := quiz_eq_ok.mp ha
    exact h.reward hf hr

/-- Signing and paying fees creates no account. -/
theorem screen (h : l.Enrols order) (hf : AccountsFit l.accounts) {t : Transaction}
    (hs : l.screen t = .ok n) : n.Enrols order := by
  have hn : AccountsFit n.accounts ∧ n.Enrols order := by
    refine screen_preserves (P := fun k => AccountsFit k.accounts ∧ k.Enrols order) hs
      (fun k k' signer g hk ha => ?_) (fun k k' payer fee hk hc => ?_) ⟨hf, h⟩
    · obtain ⟨x, y, hx, hy, rfl⟩ := authorize_eq_ok.mp ha
      have hfit := Admission.fitsUnder_signed (hk.1 signer x hx) hy
      exact ⟨hk.1.put hfit, hk.2.put hx hfit.address_eq (Admission.signs_of_signed hy).numbered⟩
    · have hc := charge_eq_ok.mp hc
      split at hc
      · rw [hc]
        exact hk
      · obtain ⟨d, hd, hfee⟩ := hc
        obtain ⟨total, -, rfl⟩ := addFee_eq_ok.mp hfee
        have hfit : AccountsFit d.accounts := hk.1.debit hd
        exact ⟨hfit, (hk.2.debit hk.1 hd).of_same rfl rfl⟩
  exact hn.2

theorem execute (h : l.Enrols order) (hl : l.WellFormed) {t : Transaction}
    (he : l.execute .deliver t = .ok n) : n.Enrols (t.payees.foldl enlist order) := by
  obtain ⟨hc, k, hk, hn⟩ := execute_eq_ok.mp he
  have hscreened : k.Enrols ([].foldl enlist order) := h.screen hl.accounts hk
  have hr : n.WellFormed ∧ n.Enrols (([] ++ t.payees).foldl enlist order) := by
    refine foldlM_records (P := fun l ps => l.WellFormed ∧ l.Enrols (ps.foldl enlist order))
      (fun m hm l n ps hl ha => ?_) ⟨hl.screen hk, hscreened⟩ hn
    rw [List.foldl_append]
    exact ⟨hl.1.apply (Transaction.messages_of_check hc m hm) ha, hl.2.apply hl.1.accounts ha⟩
  exact hr.2

theorem loadAccounts (h : l.Enrols order) {seen : List Address} {as : List GenesisAccount}
    (hs : order ⊆ seen) (hn : l.loadAccounts seen as = .ok n) :
    n.Enrols (order ++ as.map GenesisAccount.holder) := by
  induction as generalizing l order seen with
  | nil =>
    cases hn
    rw [List.map_nil, List.append_nil]
    exact h
  | cons a as ih =>
    obtain ⟨ha, hn⟩ := loadAccounts_cons_eq_ok.mp hn
    have hone : (l.enroll a).Enrols (order ++ [a.holder]) := h.create (fun hm => ha (hs hm)) rfl rfl
    have hsub : order ++ [a.holder] ⊆ a.holder :: seen := by
      intro p hp
      rcases List.mem_append.mp hp with hp | hp
      · exact List.mem_cons_of_mem _ (hs hp)
      · exact List.mem_singleton.mp hp ▸ List.mem_cons_self ..
    rw [List.map_cons, List.append_cons]
    exact ih hone hsub hn

/-- A chain starts with the accounts of its document. -/
theorem of_genesis {g : Genesis} (h : ofGenesis g = .ok n) :
    n.Enrols (g.accounts.map GenesisAccount.holder) := by
  obtain ⟨l₁, l₂, l₃, hload⟩ := ofGenesis_eq_ok.mp h
  have h₀ : (initial g).Enrols [] := by
    refine ⟨.nil, fun _ hi => absurd hi (Nat.not_lt_zero _), fun _ _ => ?_, counter_initial g⟩
    rw [initial_eq]
    rfl
  have h₁ := h₀.loadAccounts (List.nil_subset _) hload.accounts
  rw [loadBonds_frame hload.bonds, loadSequences_frame hload.sequences,
    loadQueues_frame hload.queues]
  exact h₁.of_same rfl rfl

/-- Accounts are numbered in the order of their creation, whatever has been carried out. -/
theorem of_run {g : Genesis} {ts : List Transaction} {start : Ledger}
    (hs : ofGenesis g = .ok start)
    (h : ts.foldlM (fun l t => l.execute .deliver t) start = .ok l) : l.Enrols (g.enrolled ts) := by
  have hr : l.WellFormed ∧ l.Enrols (g.enrolled ([] ++ ts.flatMap ([·]))) := by
    have hstart : start.Enrols (g.enrolled []) := of_genesis hs
    refine foldlM_records (P := fun l ts => l.WellFormed ∧ l.Enrols (g.enrolled ts))
      (fun t _ l n us hl he => ?_) ⟨.of_genesis hs, hstart⟩ h
    rw [Genesis.enrolled_append, List.flatMap_singleton]
    exact ⟨hl.1.execute he, hl.2.execute hl.1 he⟩
  rw [List.flatMap_singleton', List.nil_append] at hr
  exact hr.2

/-- A stored account has a place, and its number. -/
theorem exists_place (h : l.Enrols order) (hx : l.accounts.get? a = some x) :
    ∃ i, ∃ hi : i < order.length, order[i] = a ∧ x.number = .ofNat i := by
  obtain ⟨i, hi, rfl⟩ := List.mem_iff_getElem.mp (h.mem_of_get? hx)
  obtain ⟨y, hy, hnumber⟩ := h.account i hi
  rw [hx] at hy
  cases hy
  exact ⟨i, hi, rfl, hnumber⟩

/-- As far as words can count the accounts, each of the numbers below is given once. -/
theorem perm_numbers (h : l.Enrols order) (hn : order.length ≤ UInt64.size) :
    (l.accounts.entries.map fun e => e.2.number.toNat).Perm (List.range order.length) := by
  have hplace (e) (he : e ∈ l.accounts.entries) :
      l.accounts.get? e.1 = some e.2 ∧ ∃ hi : e.2.number.toNat < order.length,
        order[e.2.number.toNat] = e.1 := by
    have hx := (OrderedMap.mem_entries_iff _ _ _).mp he
    obtain ⟨i, hi, hp, hnumber⟩ := h.exists_place hx
    have hnat : e.2.number.toNat = i := by
      rw [hnumber]
      exact UInt64.toNat_ofNat_of_lt' (Nat.lt_of_lt_of_le hi hn)
    subst hnat
    exact ⟨hx, hi, hp⟩
  have hdistinct : (l.accounts.entries.map fun e => e.2.number.toNat).Nodup := by
    refine List.Nodup.map_on (fun e he f hf hef => ?_) (l.accounts.ascending.imp fun hlt heq => ?_)
    · obtain ⟨hx, hi, hp⟩ := hplace e he
      obtain ⟨hy, hj, hq⟩ := hplace f hf
      have haddress : e.1 = f.1 := by
        rw [← hp, ← hq]
        simp only [hef]
      rw [haddress, hy] at hx
      exact Prod.ext haddress (Option.some.inj hx).symm
    · rw [heq] at hlt
      cases (Std.ReflCmp.compare_self).symm.trans hlt
  refine (List.perm_ext_iff_of_nodup hdistinct List.nodup_range).mpr fun i => ?_
  rw [List.mem_range, List.mem_map]
  constructor
  · rintro ⟨e, he, rfl⟩
    obtain ⟨-, hi, -⟩ := hplace e he
    exact hi
  · intro hi
    obtain ⟨x, hx, hnumber⟩ := h.account i hi
    refine ⟨_, (OrderedMap.mem_entries_iff _ _ _).mpr hx, ?_⟩
    rw [hnumber]
    exact UInt64.toNat_ofNat_of_lt' (Nat.lt_of_lt_of_le hi hn)

end Enrols
end Ledger

/-- The next account number, if one has been stored. -/
def Accounts.counter : Exec (Option UInt64) := Exec.load .accounts .word counterKey

theorem Accounts.reads_counter {s : MultiStore} {mode : Mode} {l : Ledger} :
    Reads s mode counter l (.ok l.counter) :=
  .load (by decide) (fun _ ht => ht.accounts.counter_eq) fun n _ => Layout.readsBack_word n

namespace App

variable {a b : App} {l : Ledger} {g : Genesis} {ts us : List Transaction} {order : List Address}

/-- The accounts are those of the listed addresses, numbered by their places, and the counter is at
how many there are. Numbers are words. As far as words can count the accounts, these have the
numbers from zero on, each once. -/
structure Numbers (a : App) (order : List Address) : Prop where
  nodup : order.Nodup
  account : ∀ i (h : i < order.length),
    ∃ x, a.account order[i] = .ok (some x) ∧ x.number = .ofNat i
  no_account : ∀ p, p ∉ order → a.account p = .ok none
  counter : a.read Accounts.counter =
    .ok (if order = [] then none else some (.ofNat order.length))
  gapless : order.length ≤ UInt64.size → ∃ xs, a.read Accounts.all = .ok xs ∧
    xs.length = order.length ∧ (xs.map fun x => x.number.toNat).Perm (List.range order.length)

theorem Holds.numbers (h : a.Holds l) (ho : l.Enrols order) : a.Numbers order where
  nodup := ho.nodup
  account i hi := by
    rw [h.account_eq]
    obtain ⟨x, hx, hnumber⟩ := ho.account i hi
    exact ⟨x, congrArg _ hx, hnumber⟩
  no_account p hp := by rw [h.account_eq, ho.no_account p hp]
  counter := by rw [h.read_eq Accounts.reads_counter, ho.counter_eq]
  gapless hn := by
    have hp := ho.perm_numbers hn
    have hlength := hp.length_eq
    rw [List.length_map, List.length_range] at hlength
    refine ⟨_, h.read_eq Accounts.reads_all, ?_, ?_⟩
    · rw [List.length_map, hlength]
    · rw [List.map_map]
      exact hp

/-- At every point of a run the accounts are numbered without gaps in the order in which they were
created, the ones of the document first. From any point to any later one the order only gets longer,
and every account keeps its number. -/
theorem Run.accounts_numbered (h : Run g ts a) (hc : Continues a us b) :
    a.Numbers (g.enrolled ts) ∧ b.Numbers (g.enrolled (ts ++ us)) ∧
      g.accounts.map GenesisAccount.holder <+: g.enrolled ts ∧
      g.enrolled ts <+: g.enrolled (ts ++ us) ∧
      ∀ p x, a.account p = .ok (some x) →
        ∃ y, b.account p = .ok (some y) ∧ y.number = x.number := by
  obtain ⟨start, l, hs, hts, hl, -⟩ := h.holds
  obtain ⟨start', n, hs', hus, hn, -⟩ := (h.continues hc).holds
  rw [hs] at hs'
  cases hs'
  have hbefore := Ledger.Enrols.of_run hs hts
  have hafter := Ledger.Enrols.of_run hs hus
  refine ⟨hl.numbers hbefore, hn.numbers hafter, prefix_foldl_enlist _ _, Genesis.enrolled_prefix,
    fun p x hx => ?_⟩
  rw [hl.account_eq] at hx
  obtain ⟨i, hi, rfl, hnumber⟩ := hbefore.exists_place (Except.ok.inj hx)
  have hprefix : g.enrolled ts <+: g.enrolled (ts ++ us) := Genesis.enrolled_prefix
  obtain ⟨y, hy, hnumber'⟩ := hafter.account i (Nat.lt_of_lt_of_le hi hprefix.length_le)
  refine ⟨y, ?_, hnumber'.trans hnumber.symm⟩
  rw [hn.account_eq, ← hy, hprefix.getElem hi]

namespace Sample

/-- The first of the payees comes last in the order of addresses. -/
def gifts : Transaction where
  messages := [.send ⟨holder, largest, .single "pow" 1⟩, .send ⟨holder, friend, .single "pow" 1⟩]
  fee := ⟨.empty, 0⟩
  signatures := [⟨"07", "aa", 0, 0⟩]
  memo := ""

theorem valid_gifts : gifts.Valid where
  fee := Coins.valid_empty
  messages := by
    simp only [gifts, List.forall_mem_cons]
    exact ⟨Coins.valid_single (by decide) 1, Coins.valid_single (by decide) 1, nofun⟩

theorem enrolled_gifts : genesis.enrolled [gifts] = [holder, largest, friend] := by decide +kernel

end Sample

/-- Two payees get the numbers after that of the account of the document. -/
theorem Run.accounts_numbered_gifts :
    ∃ a b x y, Run Sample.genesis [] a ∧ Continues a [Sample.gifts] b ∧
      b.account Sample.largest = .ok (some x) ∧ x.number = 1 ∧
      b.account Sample.friend = .ok (some y) ∧ y.number = 2 ∧
      b.read Accounts.counter = .ok (some 3) := by
  obtain ⟨a, b, ha, hacc, hp, -⟩ :=
    Sample.exists_run Sample.valid_genesis Sample.valid_gifts (by decide +kernel)
  have hc : Continues a [Sample.gifts] b := by
    have hstep := Continues.step .refl (fun h => by cases h) hp
    rw [hacc] at hstep
    exact hstep
  obtain ⟨-, hb, -⟩ := Run.accounts_numbered ha hc
  rw [List.nil_append, Sample.enrolled_gifts] at hb
  obtain ⟨x, hx, hnumber⟩ := hb.account 1 (by decide)
  obtain ⟨y, hy, hnumber'⟩ := hb.account 2 (by decide)
  exact ⟨a, b, x, y, ha, hc, hx, hnumber, hy, hnumber', hb.counter⟩

end App
end Appchain
