import Appchain.Proofs.CountedDocuments
import Appchain.Proofs.GenesisRoundTrip
import Appchain.Proofs.Spending

/-!
# What a document loads

A fresh application accepts a document exactly if every section of it is
acceptable. What its modules then read back is what the document says, section by
section and entry by entry, and nothing else.
-/

namespace Appchain

open Outcome

/-- The account that a chain starts with: no name, no key, and no transaction yet. -/
def GenesisAccount.numbered (a : GenesisAccount) (n : UInt64) : Account :=
  .named ⟨"", ⟨a.holder, a.coins, none, n, 0⟩⟩

namespace Ledger

variable {l n : Ledger} {g : Genesis}

/-! Accounts. -/

theorem get?_enroll (l : Ledger) (a : GenesisAccount) (p : Address) :
    (l.enroll a).accounts.get? p =
      if p = a.holder then some (a.numbered (l.counter.getD 0)) else l.accounts.get? p :=
  OrderedMap.get?_insert ..

theorem get?_loadAccounts_of_ne {seen : List Address} {as : List GenesisAccount}
    (h : l.loadAccounts seen as = .ok n) {p : Address} (hp : ∀ a ∈ as, a.holder ≠ p) :
    n.accounts.get? p = l.accounts.get? p := by
  induction as generalizing l seen with
  | nil =>
    cases h
    rfl
  | cons a as ih =>
    obtain ⟨ha, has⟩ := List.forall_mem_cons.mp hp
    rw [ih (loadAccounts_cons_eq_ok.mp h).2 has, get?_enroll, if_neg ha.symm]

/-- Accounts are numbered in the order in which they are listed. -/
theorem get?_loadAccounts {seen : List Address} {as : List GenesisAccount}
    (h : l.loadAccounts seen as = .ok n) (i : Nat) (hi : i < as.length) :
    n.accounts.get? as[i].holder = some (as[i].numbered (l.counter.getD 0 + .ofNat i)) := by
  induction as generalizing l seen i with
  | nil => cases hi
  | cons a as ih =>
    obtain ⟨-, h⟩ := loadAccounts_cons_eq_ok.mp h
    cases i with
    | zero =>
      -- Holders are distinct, so no later account replaces the first one.
      have hrest : ∀ b ∈ as, b.holder ≠ a.holder := by
        intro b hb he
        exact (exists_loadAccounts_iff.mp ⟨n, h⟩).2 b hb (he ▸ List.mem_cons_self ..)
      rw [List.getElem_cons_zero, get?_loadAccounts_of_ne h hrest, get?_enroll, if_pos rfl]
      exact congrArg (fun m => some (a.numbered m)) (UInt64.add_zero _).symm
    | succ i =>
      have hnumber : l.counter.getD 0 + 1 + UInt64.ofNat i = l.counter.getD 0 + .ofNat (i + 1) := by
        rw [UInt64.ofNat_add, UInt64.add_assoc, UInt64.add_comm 1]
        rfl
      rw [List.getElem_cons_succ, ih h i (Nat.lt_of_succ_lt_succ hi), ← hnumber]
      rfl

theorem counter_initial (g : Genesis) : (initial g).counter = none := by
  unfold initial loadFees
  split <;> rfl

namespace Loading

variable {enrolled channelled sequenced : Ledger} (h : Loading g enrolled channelled sequenced n)
include h

theorem get?_accounts (i : Nat) (hi : i < g.accounts.length) :
    n.accounts.get? g.accounts[i].holder = some (g.accounts[i].numbered (.ofNat i)) := by
  have hx := get?_loadAccounts h.accounts i hi
  rw [counter_initial, Option.getD_none, UInt64.zero_add] at hx
  rw [h.final_eq]
  exact hx

theorem get?_accounts_of_ne {p : Address} (hp : ∀ a ∈ g.accounts, a.holder ≠ p) :
    n.accounts.get? p = none := by
  have hx := get?_loadAccounts_of_ne h.accounts hp
  rw [initial_eq] at hx
  rw [h.final_eq]
  exact hx

end Loading

/-! Sequences and bonds. -/

theorem get?_sequences_iff {chain : String} {m : UInt64} :
    l.sequences.get? ⟨chain⟩ = some m ↔ ⟨chain, m⟩ ∈ l.listedSequences := by
  unfold listedSequences
  rw [← OrderedMap.mem_entries_iff, List.mem_map]
  constructor
  · intro h
    exact ⟨_, h, rfl⟩
  · rintro ⟨⟨⟨c⟩, k⟩, h, he⟩
    cases he
    exact h

theorem WellFormed.get?_bonds_iff (hl : l.WellFormed) {p : Address} {b : Bond} :
    l.bonds.get? p = some b ↔ b ∈ l.listedBonds ∧ b.holder = p := by
  unfold listedBonds
  rw [List.mem_map]
  constructor
  · intro h
    exact ⟨⟨_, (OrderedMap.mem_entries_iff ..).mpr h, rfl⟩, (hl.bonds p b h).1⟩
  · rintro ⟨⟨e, h, rfl⟩, rfl⟩
    have he := (OrderedMap.mem_entries_iff ..).mp h
    rw [(hl.bonds _ _ he).1]
    exact he

namespace Loading

variable {enrolled channelled sequenced : Ledger} (h : Loading g enrolled channelled sequenced n)
include h

theorem nextSequence_of_mem {c : ChainSequence} (hc : c ∈ g.channels.sequences) :
    n.nextSequence c.chain = c.sequence := by
  rw [nextSequence, get?_sequences_iff.mpr (h.perm_sequences.mem_iff.mpr hc)]
  rfl

theorem nextSequence_of_ne {chain : String} (hne : ∀ c ∈ g.channels.sequences, c.chain ≠ chain) :
    n.nextSequence chain = 0 := by
  have hg : n.sequences.get? ⟨chain⟩ = none := by
    refine Option.eq_none_iff_forall_ne_some.mpr fun m hm => ?_
    exact hne _ (h.perm_sequences.mem_iff.mp (get?_sequences_iff.mp hm)) rfl
  rw [nextSequence, hg]
  rfl

theorem get?_bonds_of_mem (hn : n.WellFormed) {b : Bond} (hb : b ∈ g.staking.bonds) :
    n.bonds.get? b.holder = some b :=
  hn.get?_bonds_iff.mpr ⟨h.perm_bonds.mem_iff.mpr hb, rfl⟩

theorem get?_bonds_of_ne (hn : n.WellFormed) {p : Address} (hne : ∀ b ∈ g.staking.bonds, b.holder ≠ p) :
    n.bonds.get? p = none := by
  refine Option.eq_none_iff_forall_ne_some.mpr fun b hb => ?_
  obtain ⟨hm, he⟩ := hn.get?_bonds_iff.mp hb
  exact hne b (h.perm_bonds.mem_iff.mp hm) he

end Loading
end Ledger

namespace App

variable {a b : App} {l : Ledger} {g : Genesis}

/-- The queue to a chain, as it is read off the stores by its length and one by one. -/
structure HasQueue (b : App) (chain : String) (ps : List Packet) : Prop where
  length : b.read (Channels.length chain) = .ok (.ofNat ps.length)
  packet : ∀ i, b.read (Channels.packet? chain i) = .ok ps[i.toNat]?
  packets : b.read (Channels.packets chain ps.length 0) = .ok ps

/-- The modules read back what the document says, and nothing else. -/
structure Loaded (b : App) (g : Genesis) : Prop where
  account : ∀ i (h : i < g.accounts.length),
    b.account g.accounts[i].holder = .ok (some (g.accounts[i].numbered (.ofNat i)))
  no_account : ∀ p, (∀ x ∈ g.accounts, x.holder ≠ p) → b.account p = .ok none
  accounts : ∃ as, b.read Accounts.all = .ok as ∧ (as.map .ofAccount).Perm g.accounts
  parameters : b.read Accounts.parameters = .ok g.auth.parameters
  fees : b.read Fees.collected = .ok g.auth.collectedFees
  difficulty : b.read Mining.difficulty = .ok g.mining.difficulty
  count : b.read Mining.count = .ok g.mining.count
  trend : b.read Trend.current = .ok g.trend.trend
  queue : ∀ q ∈ g.channels.queues, b.HasQueue q.chain q.packets
  no_queue : ∀ chain, (∀ q ∈ g.channels.queues, q.chain ≠ chain) → b.HasQueue chain []
  sequence : ∀ c ∈ g.channels.sequences, b.read (Channels.nextSequence c.chain) = .ok c.sequence
  no_sequence : ∀ chain, (∀ c ∈ g.channels.sequences, c.chain ≠ chain) →
    b.read (Channels.nextSequence chain) = .ok 0
  bond : ∀ x ∈ g.staking.bonds, b.bond x.holder = .ok (some x)
  no_bond : ∀ p, (∀ x ∈ g.staking.bonds, x.holder ≠ p) → b.bond p = .ok none
  bonds : ∃ bs, b.read Staking.all = .ok bs ∧ bs.Perm g.staking.bonds

/-- Queues that can be counted are read back packet by packet. -/
theorem Holds.hasQueue (h : b.Holds l) {ps : List Packet} (hq : l.Queued ps) {chain : String}
    (hn : (packetsTo chain ps).length < UInt64.size) : b.HasQueue chain (packetsTo chain ps) where
  length := by
    rw [h.read_eq (Channels.reads_length chain), hq.length_eq]
  packet i := by
    rw [h.read_eq (Channels.reads_packet? chain i), hq.packets_eq]
  packets := by
    rw [h.read_eq (Channels.reads_packets chain _ 0),
      Ledger.packetsFrom_eq (hq.packets_eq chain) hn _ 0 (Nat.zero_add _)]
    rfl

theorem Holds.loaded (h : b.Holds l) (hl : Ledger.ofGenesis g = .ok l) (hc : Countable g.sends) :
    b.Loaded g := by
  obtain ⟨l₁, l₂, l₃, hload⟩ := Ledger.ofGenesis_eq_ok.mp hl
  have hwf : l.WellFormed := .of_genesis hl
  have hq : l.Queued g.sends := .of_genesis hc hl
  have hfit : QueuesFit [] g.channels.queues := Ledger.exists_loadQueues_iff.mp ⟨l₂, hload.queues⟩
  obtain ⟨hdifficulty, hcount⟩ := Ledger.work_of_ofGenesis hl
  exact {
    account := fun i hi => by
      rw [h.account_eq, hload.get?_accounts i hi]
    no_account := fun p hp => by
      rw [h.account_eq, hload.get?_accounts_of_ne hp]
    accounts := by
      refine ⟨_, h.read_eq Accounts.reads_all, ?_⟩
      rw [List.map_map]
      exact hload.perm_accounts
    parameters := by
      rw [h.read_eq Accounts.reads_parameters, hload.final_eq]
      rfl
    fees := by
      rw [h.read_eq Fees.reads_collected, hload.final_eq]
      exact congrArg Except.ok (Ledger.fees_loadFees rfl _)
    difficulty := by
      rw [h.read_eq Mining.reads_difficulty, hdifficulty]
      rfl
    count := by
      rw [h.read_eq Mining.reads_count, hcount]
      rfl
    trend := by
      rw [h.read_eq Trend.reads_current, hload.final_eq]
      rfl
    queue := fun q hm => by
      have hp : packetsTo q.chain g.sends = q.packets := hfit.packetsTo_eq hm
      exact hp ▸ h.hasQueue hq (hc q.chain)
    no_queue := fun chain hne => by
      have hp : packetsTo chain g.sends = [] := by
        apply Classical.byContradiction
        intro hp
        obtain ⟨q, hm, he⟩ := hfit.exists_queue hp
        exact hne q hm he
      exact hp ▸ h.hasQueue hq (hc chain)
    sequence := fun c hm => by
      rw [h.read_eq (Channels.reads_nextSequence c.chain), hload.nextSequence_of_mem hm]
    no_sequence := fun chain hne => by
      rw [h.read_eq (Channels.reads_nextSequence chain), hload.nextSequence_of_ne hne]
    bond := fun x hm => by
      rw [h.bond_eq, hload.get?_bonds_of_mem hwf hm]
    no_bond := fun p hne => by
      rw [h.bond_eq, hload.get?_bonds_of_ne hwf hne]
    bonds := ⟨_, h.read_eq Staking.reads_all, hload.perm_bonds⟩ }

/-- A fresh application takes in exactly the documents that are acceptable. The validators are those
of the bonds in their order, and what has been loaded is what the document says. Lengths and account
numbers are words, so this is said of documents whose bytes can be counted by a word, as all can. -/
theorem initChain_loads (hf : fresh = .ok a) (chain : String) (document : Bytes) :
    ((∃ vs b, a.initChain chain document = .ok (vs, b)) ↔
      ∃ g, Genesis.decode document = .ok g ∧ Ledger.Acceptable g) ∧
    ∀ vs b, a.initChain chain document = .ok (vs, b) → ∃ g, Genesis.decode document = .ok g ∧
      vs = g.staking.bonds.map Bond.validator ∧ (document.length < UInt64.size →
        b.Loaded g ∧ g.accounts.length < UInt64.size ∧
          ∀ q ∈ g.channels.queues, q.packets.length < UInt64.size) := by
  rw [fresh_eq] at hf
  cases hf
  refine ⟨⟨?_, ?_⟩, ?_⟩
  · rintro ⟨vs, b, hi⟩
    obtain ⟨g, l, hd, hl, -, -⟩ := blank_opened.exists_of_initChain hi
    exact ⟨g, hd, Ledger.exists_ofGenesis_iff.mp ⟨l, hl⟩⟩
  · rintro ⟨g, hd, hg⟩
    obtain ⟨l, hl⟩ := Ledger.exists_ofGenesis_iff.mpr hg
    obtain ⟨b, hb, -, -⟩ := initChain_of_ok hd hl chain
    exact ⟨_, b, hb⟩
  · intro vs b hi
    obtain ⟨g, l, hd, hl, hv, hb⟩ := blank_opened.exists_of_initChain hi
    refine ⟨g, hd, hv, fun hn => ?_⟩
    have hqueues : ∀ q ∈ g.channels.queues, q.packets.length < UInt64.size :=
      fun q hq => Nat.lt_of_le_of_lt (Genesis.length_packets_le hd q hq) hn
    have hfit := (Ledger.exists_ofGenesis_iff.mp ⟨l, hl⟩).queues
    exact ⟨hb.loaded hl (hfit.countable_iff.mpr hqueues),
      Nat.lt_of_le_of_lt (Genesis.length_accounts_le hd) hn, hqueues⟩

namespace Sample

/-- A document with an entry in every list. -/
def stocked : Genesis :=
  { shared with
    auth := ⟨.initial, .single "pow" 4⟩
    channels :=
      ⟨[⟨"iris", [⟨holder, friend, .single "pow" 1, "xpx", "iris"⟩]⟩, ⟨"sky", []⟩], [⟨"iris", 3⟩]⟩
    staking := ⟨[⟨friend, "08", 2⟩]⟩ }

theorem valid_stocked : stocked.Valid where
  fees := Coins.valid_single (by decide) 4
  accounts := valid_shared.accounts
  packets := by
    intro q hq p hp
    rcases List.mem_cons.mp hq with rfl | hq
    · rw [List.mem_singleton.mp hp]
      exact Coins.valid_single (by decide) 1
    · rw [List.mem_singleton.mp hq] at hp
      cases hp

end Sample

/-- What is read back of a document with an entry in every list. -/
theorem initChain_loads_stocked :
    ∃ a b, fresh = .ok a ∧
      a.initChain "" Sample.stocked.document = .ok ([⟨"08", 2⟩], b) ∧ b.Loaded Sample.stocked := by
  have hd : Genesis.decode Sample.stocked.document = .ok Sample.stocked :=
    Genesis.decode_document Sample.valid_stocked
  have hl : (Ledger.ofGenesis Sample.stocked).toOption.isSome = true := by decide +kernel
  obtain ⟨l, hl⟩ := Option.isSome_iff_exists.mp hl
  obtain ⟨hiff, hloads⟩ := initChain_loads fresh_eq "" Sample.stocked.document
  obtain ⟨vs, b, hi⟩ := hiff.mpr
    ⟨_, hd, Ledger.exists_ofGenesis_iff.mp ⟨l, toOption_eq_some.mp hl⟩⟩
  obtain ⟨g, hg, rfl, hb⟩ := hloads vs b hi
  rw [hd] at hg
  cases hg
  exact ⟨_, b, fresh_eq, hi, (hb (by decide +kernel)).1⟩

end App
end Appchain
