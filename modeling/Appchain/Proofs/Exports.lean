import Appchain.Proofs.Documents
import Appchain.Proofs.Reimport

/-!
# Exported documents

The document of an application is the one of its ledger. After any run it starts
another application that holds the same and exports the same document and the
same validators. A document that has just been loaded is exported again up to
order, except that a queue without packets is lost.
-/

namespace Appchain

open Outcome

namespace App

variable {a b : App} {l n : Ledger} {g : Genesis}

/-- What is exported once the application is ready. -/
theorem reads_snapshot {s : MultiStore} {mode : Mode} (hg : l.genesis = .ok g) :
    Reads s mode (do
      let g ← Genesis.snapshot .ready
      let validators ← GenesisExec.within StakingState.moduleName Staking.validators
      return (g.document, validators)) l (.ok (g.document, l.listedBonds.map Bond.validator)) := by
  have hs : Reads s mode (Genesis.snapshot .ready) l (.ok g) := by
    unfold Genesis.snapshot
    rw [if_pos rfl, ← hg]
    exact Genesis.reads_stored
  apply hs.bind (g := fun _ => .ok _)
  intro g hg
  cases hg
  apply (Staking.reads_validators.within _).bind (g := fun _ => .ok _)
  intro vs hv
  cases hv
  unfold Ledger.listedBonds
  rw [List.map_map]
  exact .pure _

theorem reads_snapshot_of_error {s : MultiStore} {mode : Mode} {e : GenesisError}
    (he : l.genesis = .error e) :
    Reads s mode (do
      let g ← Genesis.snapshot .ready
      let validators ← GenesisExec.within StakingState.moduleName Staking.validators
      return (g.document, validators)) l (.error e) := by
  have hs : Reads s mode (Genesis.snapshot .ready) l (.error e) := by
    unfold Genesis.snapshot
    rw [if_pos rfl, ← he]
    exact Genesis.reads_stored
  exact hs.bind (g := fun _ => .error e) nofun

theorem Holds.exportState (h : a.Holds l) (hg : l.genesis = .ok g) :
    a.exportState = .ok (g.document, l.listedBonds.map Bond.validator) := by
  unfold App.exportState
  rw [h.phase]
  exact congrArg (Except.mapError AppError.genesis) (h.read_eq (reads_snapshot hg))

/-- Both applications answer, and with the same. -/
def Agree {ε α : Type} (a b : App) (x : ExecWith ε α) : Prop :=
  ∃ v, a.read x = .ok v ∧ b.read x = .ok v

theorem agree_of_reads {ε α : Type} {x : ExecWith ε α} {v : α} (ha : a.Holds l) (hb : b.Holds n)
    (hl : Reads a.store .query x l (.ok v)) (hn : Reads b.store .query x n (.ok v)) : Agree a b x :=
  ⟨v, ha.read_eq hl, hb.read_eq hn⟩

/-- Both have the same word where there has to be one. -/
theorem agree_of_require {x : Exec UInt64} {name : String} {stored : Ledger → Option UInt64}
    {w : UInt64} (ha : a.Holds l) (hb : b.Holds n)
    (hx : ∀ (s : MultiStore) (k : Ledger), Reads s .query x k (Ledger.require name (stored k)))
    (hl : stored l = some w) (hn : stored n = some w) : Agree a b x := by
  have hrl := hx a.store l
  have hrn := hx b.store n
  rw [hl] at hrl
  rw [hn] at hrn
  exact agree_of_reads ha hb hrl hrn

/-- The same balances of the same accounts, and everything else that modules keep. -/
structure SameHoldings (a b : App) : Prop where
  coins : ∀ holder, Agree a b (Option.map Account.coins <$> Accounts.get? holder)
  fees : Agree a b Fees.collected
  parameters : Agree a b Accounts.parameters
  difficulty : Agree a b Mining.difficulty
  count : Agree a b Mining.count
  trend : Agree a b Trend.current
  lengths : ∀ chain, Agree a b (Channels.length chain)
  packets : ∀ chain i, Agree a b (Channels.packet? chain i)
  sequences : ∀ chain, Agree a b (Channels.nextSequence chain)
  bonds : ∀ holder, Agree a b (Staking.get? holder)

theorem Holds.sameHoldings (ha : a.Holds l) (hb : b.Holds n) (hl : l.WellFormed)
    (h : l.SameHoldings n) : a.SameHoldings b := by
  obtain ⟨difficulty, count, hd, hc, -⟩ := hl.work
  exact {
    coins := fun holder => by
      apply agree_of_reads ha hb ((Accounts.reads_get? holder).map _)
      rw [← h.coins]
      exact (Accounts.reads_get? holder).map _
    fees := agree_of_reads ha hb Fees.reads_collected (h.fees ▸ Fees.reads_collected)
    parameters := agree_of_reads ha hb Accounts.reads_parameters
      (h.parameters ▸ Accounts.reads_parameters)
    difficulty := agree_of_require ha hb (fun _ _ => Mining.reads_difficulty) hd
      (h.difficulty.trans hd)
    count := agree_of_require ha hb (fun _ _ => Mining.reads_count) hc (h.count.trans hc)
    trend := agree_of_reads ha hb Trend.reads_current (h.trend ▸ Trend.reads_current)
    lengths := fun chain => by
      apply agree_of_reads ha hb (Channels.reads_length chain)
      unfold Ledger.length
      rw [← h.queues.lengths_eq]
      exact Channels.reads_length chain
    packets := fun chain i => by
      apply agree_of_reads ha hb (Channels.reads_packet? chain i)
      rw [← h.queues.packets_eq]
      exact Channels.reads_packet? chain i
    sequences := fun chain => by
      apply agree_of_reads ha hb (Channels.reads_nextSequence chain)
      unfold Ledger.nextSequence
      rw [← h.sequences]
      exact Channels.reads_nextSequence chain
    bonds := fun holder => by
      apply agree_of_reads ha hb (Staking.reads_get? holder)
      rw [← h.bonds]
      exact Staking.reads_get? holder }

/-- The document that is exported after any run starts another application, which holds the same
and exports the same document; the validators are the same three times. -/
theorem Run.exists_reimport {ts : List Transaction} (h : Run g ts a)
    (hc : Countable (g.sendsWith ts)) (chain : String) :
    ∃ document validators fresh b, a.exportState = .ok (document, validators) ∧
      App.fresh = .ok fresh ∧ fresh.initChain chain document = .ok (validators, b) ∧
      a.SameHoldings b ∧ b.exportState = .ok (document, validators) := by
  obtain ⟨start, l, hs, hts, hh, hl⟩ := h.holds
  obtain ⟨w, n, hg, hn, hgn, hsame⟩ := hl.exists_ofGenesis_listed (.of_run hc hs hts) hc
  obtain ⟨b, hb, hbn, -⟩ :=
    initChain_of_ok (Genesis.decode_document (hh.stored.valid.listed w)) hn chain
  have hbonds : n.listedBonds = l.listedBonds := by
    unfold Ledger.listedBonds
    rw [hsame.bonds]
  refine ⟨_, _, _, b, hh.exportState hg, fresh_eq, hb, hh.sameHoldings hbn hl hsame, ?_⟩
  rw [hbn.exportState hgn, hbonds]

/-- The chain of an accepted answer is exported and starts again. -/
theorem Run.exists_reimport_answer :
    ∃ a document validators fresh b, Run Sample.genesis [Sample.answer] a ∧
      a.exportState = .ok (document, validators) ∧ App.fresh = .ok fresh ∧
      fresh.initChain "" document = .ok (validators, b) ∧
      b.exportState = .ok (document, validators) := by
  obtain ⟨-, a, -, -, -, ha⟩ := Sample.run
  have hc : Countable (Sample.genesis.sendsWith [Sample.answer]) := countable_nil
  obtain ⟨document, validators, fresh, b, he, hf, hi, -, hb⟩ := Run.exists_reimport ha hc ""
  exact ⟨a, document, validators, fresh, b, ha, he, hf, hi, hb⟩

/-- What comes back of a document that has just been loaded: all of it, up to order, exactly if
no queue is empty or too long to be counted, and otherwise all but the empty queues. -/
theorem exists_exportState_of_initChain {document : Bytes} {chain : String} {fresh : App}
    {validators : List Validator} (hf : App.fresh = .ok fresh)
    (hd : Genesis.decode document = .ok g)
    (hi : fresh.initChain chain document = .ok (validators, b)) :
    ∃ exported validators g', b.exportState = .ok (exported, validators) ∧
      Genesis.decode exported = .ok g' ∧
      (Countable g.sends → g'.SameUpToOrder g.withoutEmptyQueues) ∧
      (g'.SameUpToOrder g ↔
        ∀ q ∈ g.channels.queues, q.packets ≠ [] ∧ q.packets.length < UInt64.size) := by
  rw [fresh_eq] at hf
  cases hf
  cases hl : Ledger.ofGenesis g with
  | error e =>
    rw [initChain_of_error hd hl] at hi
    cases hi
  | ok l =>
    obtain ⟨c, hc, hh, -⟩ := initChain_of_ok hd hl chain
    rw [hc] at hi
    cases hi
    exact ⟨_, _, _, hh.exportState (Ledger.genesis_of_ofGenesis hl),
      Genesis.decode_document (hh.stored.valid.listed _), Ledger.sameUpToOrder_listed hl,
      Ledger.sameUpToOrder_listed_iff hl⟩

/-- A document with an empty queue. -/
def Sample.emptyQueue : Genesis := { Sample.genesis with channels := ⟨[⟨"iris", []⟩], []⟩ }

theorem Sample.valid_emptyQueue : Sample.emptyQueue.Valid where
  fees := Sample.valid_genesis.fees
  accounts := Sample.valid_genesis.accounts
  packets := by
    intro q hq p hp
    rw [List.mem_singleton.mp hq] at hp
    cases hp

/-- An empty queue is lost. -/
theorem exists_exportState_of_initChain_emptyQueue :
    ∃ document fresh validators b exported validators' g', App.fresh = .ok fresh ∧
      Genesis.decode document = .ok Sample.emptyQueue ∧
      fresh.initChain "" document = .ok (validators, b) ∧
      b.exportState = .ok (exported, validators') ∧ Genesis.decode exported = .ok g' ∧
      ¬ g'.SameUpToOrder Sample.emptyQueue := by
  have hd : Genesis.decode Sample.emptyQueue.document = .ok Sample.emptyQueue :=
    Genesis.decode_document Sample.valid_emptyQueue
  have hl : (Ledger.ofGenesis Sample.emptyQueue).toOption.isSome = true := by decide +kernel
  obtain ⟨l, hl⟩ := Option.isSome_iff_exists.mp hl
  obtain ⟨b, hb, -, -⟩ := initChain_of_ok hd (toOption_eq_some.mp hl) ""
  obtain ⟨exported, validators', g', he, hg, -, hiff⟩ :=
    exists_exportState_of_initChain fresh_eq hd hb
  refine ⟨_, _, _, b, exported, validators', g', fresh_eq, hd, hb, he, hg, fun hs => ?_⟩
  exact (hiff.mp hs ⟨"iris", []⟩ (List.mem_singleton.mpr rfl)).1 rfl

end App
end Appchain
