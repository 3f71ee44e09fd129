import Appchain.Proofs.GenesisRoundTrip

/-!
# The document of a ledger

What is listed of a well-formed ledger is an acceptable document. The ledger that
it starts agrees with the one that was listed in all but the names, numbers,
sequences and keys of the accounts, and is listed as the same document.
-/

namespace Appchain

open Outcome

namespace Ledger

variable {l n : Ledger}

/-! What is listed of a well-formed ledger. -/

theorem exists_of_mem_packetsFrom {chain : String} {m : Nat} {i : UInt64} {p : Packet}
    (hp : p ∈ l.packetsFrom chain m i) : ∃ j, l.packets chain j = some p := by
  induction m generalizing i with
  | zero => cases hp
  | succ m ih =>
    rw [packetsFrom, List.mem_append, Option.mem_toList] at hp
    rcases hp with hp | hp
    · exact ⟨i, hp⟩
    · exact ih hp

theorem Valid.listed (h : l.Valid) (w : Mining.State) : (l.listed w).Valid where
  fees := by
    change (l.fees.getD .empty).Valid
    cases hf : l.fees with
    | none => exact Coins.valid_empty
    | some f => exact h.fees f hf
  accounts a ha := by
    obtain ⟨e, he, rfl⟩ := List.mem_map.mp ha
    exact h.accounts e.1 e.2 ((OrderedMap.mem_entries_iff _ _ _).mp he)
  packets q hm p hp := by
    obtain ⟨e, -, rfl⟩ := List.mem_map.mp hm
    obtain ⟨i, hi⟩ := exists_of_mem_packetsFrom hp
    exact h.packets e.1.text i p hi

theorem WellFormed.of_mem_accounts (h : l.WellFormed) {e : Address × Account}
    (he : e ∈ l.accounts.entries) : l.accounts.get? e.1 = some e.2 ∧ e.2.address = e.1 := by
  have hx := (OrderedMap.mem_entries_iff _ _ _).mp he
  exact ⟨hx, (h.accounts e.1 e.2 hx).address_eq⟩

theorem WellFormed.ascending_accounts (h : l.WellFormed) :
    Ascending GenesisAccount.holder l.listedAccounts :=
  .of_map l.accounts fun _ he => (h.of_mem_accounts he).2

theorem ascending_sequences (l : Ledger) : Ascending ChainSequence.label l.listedSequences :=
  .of_map l.sequences fun _ _ => rfl

theorem WellFormed.ascending_bonds (h : l.WellFormed) : Ascending Bond.holder l.listedBonds :=
  .of_map l.bonds fun e he => (h.bonds e.1 e.2 ((OrderedMap.mem_entries_iff _ _ _).mp he)).1

theorem WellFormed.queuesFit (h : l.WellFormed) : QueuesFit [] l.channels.queues where
  unseen := unseen_iff_distinct.mpr
    (l.ascending_queues.distinct.imp fun hne he => hne (congrArg Label.mk he))
  chains q hm := by
    obtain ⟨e, he, rfl⟩ := List.mem_map.mp hm
    exact h.lengths e.1 e.2 ((OrderedMap.mem_entries_iff _ _ _).mp he)
  addressed q hm p hp := by
    obtain ⟨e, -, rfl⟩ := List.mem_map.mp hm
    obtain ⟨i, hi⟩ := exists_of_mem_packetsFrom hp
    exact h.packets e.1.text i p hi

theorem WellFormed.acceptable (h : l.WellFormed) {w : Mining.State} (hw : w.difficulty ≠ 0) :
    Acceptable (l.listed w) where
  signatures := by
    obtain ⟨memo, signatures, -, hs, hne⟩ := h.limits
    change l.signatureLimit.getD _ ≠ 0
    rw [hs]
    exact hne
  accounts := h.ascending_accounts.distinct
  difficulty := hw
  trend := by
    obtain ⟨trend, ht, hne⟩ := h.trend
    change l.trend.getD "" ≠ ""
    rw [ht]
    exact hne
  queues := h.queuesFit
  sequences := l.ascending_sequences.distinct.imp fun hne he => hne (congrArg Label.mk he)
  sequence_chains c hm := by
    obtain ⟨e, he, rfl⟩ := List.mem_map.mp hm
    exact h.sequences e.1 e.2 ((OrderedMap.mem_entries_iff _ _ _).mp he)
  bonds := h.ascending_bonds.distinct
  powers b hm := by
    obtain ⟨e, he, rfl⟩ := List.mem_map.mp hm
    exact (h.bonds e.1 e.2 ((OrderedMap.mem_entries_iff _ _ _).mp he)).2

section Queues

variable {ps : List Packet} (hq : l.Queued ps) (hc : Countable ps)
include hq hc

/-- A queue that is listed has the packets to its chain, and there are some. -/
theorem Queued.of_mem {q : PacketQueue} (h : q ∈ l.channels.queues) :
    q.packets = packetsTo q.chain ps ∧ q.packets ≠ [] := by
  obtain ⟨e, he, rfl⟩ := List.mem_map.mp h
  have hg := (OrderedMap.mem_entries_iff _ _ _).mp he
  rw [hq.queue_eq (hc e.1.text)]
  refine ⟨rfl, fun h0 => ?_⟩
  have hl := hq.lengths_eq e.1.text
  rw [if_pos h0] at hl
  rw [hl] at hg
  cases hg

/-- The packets that are listed are those that were queued, chain by chain. -/
theorem WellFormed.packetsTo_listed (h : l.WellFormed) (w : Mining.State) (chain : String) :
    packetsTo chain (l.listed w).sends = packetsTo chain ps := by
  have hf := h.queuesFit
  by_cases hn : packetsTo chain ps = []
  · rw [hn]
    apply Classical.byContradiction
    intro hne
    obtain ⟨q, hm, rfl⟩ := hf.exists_queue hne
    obtain ⟨hpackets, hne⟩ := hq.of_mem hc hm
    exact hne (hpackets.trans hn)
  · have hl := hq.lengths_eq chain
    rw [if_neg hn] at hl
    have hm : l.queue chain ∈ l.channels.queues :=
      List.mem_map.mpr ⟨_, (OrderedMap.mem_entries_iff _ _ _).mpr hl, rfl⟩
    have hp := hf.packetsTo_eq hm
    rw [hq.queue_eq (hc chain)] at hp
    exact hp

theorem Queued.withoutEmptyQueues_listed (w : Mining.State) :
    (l.listed w).withoutEmptyQueues = l.listed w := by
  have hf : ((l.listed w).channels.queues.filter fun q => !q.packets.isEmpty) =
      (l.listed w).channels.queues := by
    apply List.filter_eq_self.mpr
    intro q hm
    obtain ⟨-, hne⟩ := hq.of_mem hc hm
    rw [Bool.not_eq_true', List.isEmpty_eq_false_iff]
    exact hne
  unfold Genesis.withoutEmptyQueues
  rw [hf]

end Queues

/-! The two ledgers. -/

/-- Two ledgers that hold the same, apart from what only the accounts themselves record. -/
structure SameHoldings (l n : Ledger) : Prop where
  coins : ∀ a, (n.accounts.get? a).map Account.coins = (l.accounts.get? a).map Account.coins
  fees : n.fees.getD .empty = l.fees.getD .empty
  parameters : n.parameters = l.parameters
  difficulty : n.difficulty = l.difficulty
  count : n.count = l.count
  trend : n.trend = l.trend
  queues : SameQueues l n
  sequences : n.sequences = l.sequences
  bonds : n.bonds = l.bonds

theorem WellFormed.coins_eq_some_iff (h : l.WellFormed) {a : Address} {c : Coins} :
    (l.accounts.get? a).map Account.coins = some c ↔ ⟨a, c⟩ ∈ l.listedAccounts := by
  rw [Option.map_eq_some_iff]
  constructor
  · rintro ⟨x, hx, rfl⟩
    refine List.mem_map.mpr ⟨(a, x), (OrderedMap.mem_entries_iff _ _ _).mpr hx, ?_⟩
    unfold GenesisAccount.ofAccount
    simp only
    rw [(h.accounts a x hx).address_eq]
  · intro hm
    obtain ⟨⟨b, x⟩, he, hx⟩ := List.mem_map.mp hm
    have hg := (OrderedMap.mem_entries_iff _ _ _).mp he
    cases hx
    rw [(h.accounts b x hg).address_eq]
    exact ⟨x, hg, rfl⟩

theorem sequences_eq_of_listed (h : n.listedSequences = l.listedSequences) :
    n.sequences = l.sequences := by
  have key (k : Ledger) :
      k.sequences.entries = k.listedSequences.map fun c => (c.label, c.sequence) := by
    unfold listedSequences
    rw [List.map_map]
    exact (List.map_id _).symm
  apply OrderedMap.ext_get?
  intro c
  unfold OrderedMap.get?
  rw [key, key, h]

theorem WellFormed.bonds_eq_of_listed (hl : l.WellFormed) (hn : n.WellFormed)
    (h : n.listedBonds = l.listedBonds) : n.bonds = l.bonds := by
  have key {k : Ledger} (hk : k.WellFormed) :
      k.bonds.entries = k.listedBonds.map fun b => (b.holder, b) := by
    unfold listedBonds
    rw [List.map_map]
    refine ((List.map_congr_left fun e he => ?_).trans (List.map_id _)).symm
    have hb := (hk.bonds e.1 e.2 ((OrderedMap.mem_entries_iff _ _ _).mp he)).1
    exact Prod.ext hb rfl
  apply OrderedMap.ext_get?
  intro c
  unfold OrderedMap.get?
  rw [key hl, key hn, h]

theorem Queued.sameQueues {ps qs : List Packet} (hl : l.Queued ps) (hn : n.Queued qs)
    (h : ∀ chain, packetsTo chain qs = packetsTo chain ps) : SameQueues l n where
  lengths_eq := OrderedMap.ext_get? fun ⟨c⟩ => by rw [hn.lengths_eq, hl.lengths_eq, h]
  packets_eq := by
    funext c i
    rw [hn.packets_eq, hl.packets_eq, h]

/-- Two well-formed ledgers are listed as the same if they are up to order. -/
theorem WellFormed.listed_eq (h : l.WellFormed) (hn : n.WellFormed) {w : Mining.State}
    (hs : (n.listed w).SameUpToOrder (l.listed w)) : n.listed w = l.listed w := by
  have hacc : n.listedAccounts = l.listedAccounts :=
    hn.ascending_accounts.eq_of_perm h.ascending_accounts hs.accounts
  have hseq : n.listedSequences = l.listedSequences :=
    n.ascending_sequences.eq_of_perm l.ascending_sequences hs.sequences
  have hbonds : n.listedBonds = l.listedBonds :=
    hn.ascending_bonds.eq_of_perm h.ascending_bonds hs.bonds
  have hqueues : n.channels.queues = l.channels.queues :=
    n.ascending_queues.eq_of_perm l.ascending_queues hs.queues
  have hchannels : n.channels = l.channels := by
    change ChannelState.mk n.channels.queues n.listedSequences = ⟨l.channels.queues, l.listedSequences⟩
    rw [hqueues, hseq]
  have htrend : TrendState.mk (n.trend.getD "") = ⟨l.trend.getD ""⟩ := hs.trend
  have hauth : AuthState.mk n.parameters (n.fees.getD .empty) =
      ⟨l.parameters, l.fees.getD .empty⟩ := hs.auth
  unfold listed
  rw [hacc, htrend, hauth, hchannels, hbonds]

/-- Well-formed ledgers that are listed as the same, and have queued the same, hold the same. -/
theorem WellFormed.sameHoldings (h : l.WellFormed) (hn : n.WellFormed) {w : Mining.State}
    (hlisted : n.listed w = l.listed w) (hwork : n.difficulty = l.difficulty ∧ n.count = l.count)
    (hqueues : SameQueues l n) : SameHoldings l n where
  coins a := by
    apply Option.ext
    intro c
    rw [hn.coins_eq_some_iff, h.coins_eq_some_iff]
    exact Iff.of_eq (congrArg (⟨a, c⟩ ∈ ·.accounts) hlisted)
  fees := congrArg (·.auth.collectedFees) hlisted
  parameters := congrArg (·.auth.parameters) hlisted
  difficulty := hwork.1
  count := hwork.2
  trend := by
    obtain ⟨s, hs, -⟩ := h.trend
    obtain ⟨t, ht, -⟩ := hn.trend
    have he : n.trend.getD "" = l.trend.getD "" := congrArg (·.trend.trend) hlisted
    rw [hs, ht] at he ⊢
    exact congrArg some he
  queues := hqueues
  sequences := sequences_eq_of_listed (congrArg (·.channels.sequences) hlisted)
  bonds := h.bonds_eq_of_listed hn (congrArg (·.staking.bonds) hlisted)

/-- A well-formed ledger has a document, and that starts a ledger again. -/
theorem WellFormed.exists_ofGenesis (h : l.WellFormed) :
    ∃ w n, l.difficulty = some w.difficulty ∧ l.count = some w.count ∧
      ofGenesis (l.listed w) = .ok n := by
  obtain ⟨difficulty, count, hd, hcount, hne⟩ := h.work
  obtain ⟨n, hn⟩ := exists_ofGenesis_iff.mpr (h.acceptable (w := ⟨difficulty, count⟩) hne)
  exact ⟨_, n, hd, hcount, hn⟩

/-- The document of a well-formed ledger starts a ledger that holds the same and has the same
document. -/
theorem WellFormed.exists_ofGenesis_listed (h : l.WellFormed) {ps : List Packet} (hq : l.Queued ps)
    (hc : Countable ps) :
    ∃ w n, l.genesis = .ok (l.listed w) ∧ ofGenesis (l.listed w) = .ok n ∧
      n.genesis = .ok (l.listed w) ∧ SameHoldings l n := by
  obtain ⟨w, n, hd, hcount, hn⟩ := h.exists_ofGenesis
  have hsends := h.packetsTo_listed hq hc w
  have hcn : Countable (l.listed w).sends := by
    intro chain
    rw [hsends]
    exact hc chain
  have hwf : n.WellFormed := .of_genesis hn
  have hlisted : n.listed w = l.listed w := by
    apply h.listed_eq hwf
    have hs := sameUpToOrder_listed hn hcn
    rw [hq.withoutEmptyQueues_listed hc] at hs
    exact hs
  obtain ⟨hnd, hnc⟩ := work_of_ofGenesis hn
  have hng : n.genesis = .ok (l.listed w) := by
    rw [genesis_eq_ok hnd hnc]
    exact congrArg Except.ok hlisted
  exact ⟨w, n, genesis_eq_ok hd hcount, hn, hng, h.sameHoldings hwf hlisted
    ⟨hnd.trans hd.symm, hnc.trans hcount.symm⟩ (hq.sameQueues (.of_genesis hcn hn) hsends)⟩

end Ledger
end Appchain
