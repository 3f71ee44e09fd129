import Appchain.Proofs.GenesisLoading

/-!
# Acceptable documents

A genesis document starts a ledger exactly if its sections are what is asked of
them. Lists under keys are checked entry by entry against the keys that have
been seen, which comes down to distinct keys.
-/

namespace Appchain

open Outcome

/-- The keys of a list are distinct, and none of them has been seen. -/
def Unseen {α K : Type} (key : α → K) (seen : List K) (as : List α) : Prop :=
  (as.Pairwise fun a b => key a ≠ key b) ∧ ∀ a ∈ as, key a ∉ seen

section Unseen

variable {α K : Type} {key : α → K} {seen : List K} {a : α} {as : List α}

theorem unseen_nil : Unseen key seen [] := ⟨.nil, nofun⟩

theorem unseen_iff_distinct : Unseen key [] as ↔ as.Pairwise fun a b => key a ≠ key b :=
  ⟨And.left, fun h => ⟨h, fun _ _ => List.not_mem_nil⟩⟩

/-- An entry whose key has not been seen adds its key to those that have. -/
theorem unseen_cons : Unseen key seen (a :: as) ↔ key a ∉ seen ∧ Unseen key (key a :: seen) as := by
  unfold Unseen
  rw [List.pairwise_cons, List.forall_mem_cons]
  constructor
  · rintro ⟨⟨ha, hd⟩, hsa, hs⟩
    refine ⟨hsa, hd, ?_⟩
    intro b hb hm
    rcases List.mem_cons.mp hm with he | hm
    · exact ha b hb he.symm
    · exact hs b hb hm
  · rintro ⟨hsa, hd, hs⟩
    have ha : ∀ b ∈ as, key a ≠ key b := by
      intro b hb he
      exact hs b hb (he ▸ List.mem_cons_self ..)
    exact ⟨⟨ha, hd⟩, hsa, fun b hb hm => hs b hb (List.mem_cons_of_mem _ hm)⟩

end Unseen

/-- Queues of distinct chains, each of packets to its own chain. -/
structure QueuesFit (seen : List String) (qs : List PacketQueue) : Prop where
  unseen : Unseen PacketQueue.chain seen qs
  chains : ∀ q ∈ qs, isChainId q.chain = true
  addressed : ∀ q ∈ qs, ∀ p ∈ q.packets, p.destination = q.chain

theorem queuesFit_cons {seen : List String} {q : PacketQueue} {qs : List PacketQueue} :
    QueuesFit seen (q :: qs) ↔ isChainId q.chain = true ∧ q.chain ∉ seen ∧
      (∀ p ∈ q.packets, p.destination = q.chain) ∧ QueuesFit (q.chain :: seen) qs := by
  constructor
  · intro h
    obtain ⟨hs, hu⟩ := unseen_cons.mp h.unseen
    obtain ⟨hc, hcs⟩ := List.forall_mem_cons.mp h.chains
    obtain ⟨ha, has⟩ := List.forall_mem_cons.mp h.addressed
    exact ⟨hc, hs, ha, hu, hcs, has⟩
  · rintro ⟨hc, hs, ha, hu, hcs, has⟩
    exact ⟨unseen_cons.mpr ⟨hs, hu⟩, List.forall_mem_cons.mpr ⟨hc, hcs⟩,
      List.forall_mem_cons.mpr ⟨ha, has⟩⟩

namespace Ledger

variable {l : Ledger} {g : Genesis}

/-! The lists. -/

theorem exists_loadAccounts_iff {seen : List Address} {as : List GenesisAccount} :
    (∃ n, l.loadAccounts seen as = .ok n) ↔ Unseen GenesisAccount.holder seen as := by
  induction as generalizing l seen with
  | nil => exact iff_of_true ⟨l, rfl⟩ unseen_nil
  | cons a as ih =>
    rw [unseen_cons, ← ih (l := l.enroll a)]
    simp only [loadAccounts_cons_eq_ok, exists_and_left]

theorem exists_loadSequences_iff {seen : List String} {cs : List ChainSequence} :
    (∃ n, l.loadSequences seen cs = .ok n) ↔
      Unseen ChainSequence.chain seen cs ∧ ∀ c ∈ cs, isChainId c.chain = true := by
  induction cs generalizing l seen with
  | nil => exact iff_of_true ⟨l, rfl⟩ ⟨unseen_nil, nofun⟩
  | cons c cs ih =>
    rw [unseen_cons, List.forall_mem_cons]
    simp only [loadSequences_cons_eq_ok, exists_and_left]
    rw [ih]
    constructor
    · rintro ⟨hc, hs, hu, hcs⟩
      exact ⟨⟨hs, hu⟩, hc, hcs⟩
    · rintro ⟨⟨hs, hu⟩, hc, hcs⟩
      exact ⟨hc, hs, hu, hcs⟩

theorem exists_loadPackets_iff {chain : String} {ps : List Packet} :
    (∃ n, ps.foldlM (loadPacket chain) l = .ok n) ↔ ∀ p ∈ ps, p.destination = chain := by
  induction ps generalizing l with
  | nil => exact iff_of_true ⟨l, rfl⟩ nofun
  | cons p ps ih =>
    rw [List.forall_mem_cons, ← ih (l := l.post p), List.foldlM_cons]
    simp only [bind_eq_ok, loadPacket_eq_ok]
    constructor
    · rintro ⟨n, k, ⟨hp, rfl⟩, hn⟩
      exact ⟨hp, n, hn⟩
    · rintro ⟨hp, n, hn⟩
      exact ⟨n, _, ⟨hp, rfl⟩, hn⟩

theorem exists_loadQueues_iff {seen : List String} {qs : List PacketQueue} :
    (∃ n, l.loadQueues seen qs = .ok n) ↔ QueuesFit seen qs := by
  induction qs generalizing l seen with
  | nil => exact iff_of_true ⟨l, rfl⟩ ⟨unseen_nil, nofun, nofun⟩
  | cons q qs ih =>
    rw [queuesFit_cons, ← exists_loadPackets_iff (l := l)]
    simp only [loadQueues_cons_eq_ok]
    constructor
    · rintro ⟨n, hc, hs, k, hk, hn⟩
      exact ⟨hc, hs, ⟨k, hk⟩, ih.mp ⟨n, hn⟩⟩
    · rintro ⟨hc, hs, ⟨k, hk⟩, hf⟩
      obtain ⟨n, hn⟩ := ih.mpr hf
      exact ⟨n, hc, hs, k, hk, hn⟩

theorem exists_loadBonds_iff {bs : List Bond} :
    (∃ n, bs.foldlM loadBond l = .ok n) ↔ (bs.Pairwise fun b c => b.holder ≠ c.holder) ∧
      (∀ b ∈ bs, b.power ≠ 0) ∧ ∀ b ∈ bs, l.bonds.get? b.holder = none := by
  induction bs generalizing l with
  | nil => exact iff_of_true ⟨l, rfl⟩ ⟨.nil, nofun, nofun⟩
  | cons b bs ih =>
    rw [List.pairwise_cons, List.forall_mem_cons, List.forall_mem_cons, List.foldlM_cons]
    simp only [bind_eq_ok, loadBond_eq_ok]
    have hnew (c : Bond) : (l.putBond b).bonds.get? c.holder = none ↔
        b.holder ≠ c.holder ∧ l.bonds.get? c.holder = none := by
      change (l.bonds.insert b.holder b).get? c.holder = none ↔ _
      rw [OrderedMap.get?_insert]
      split
      · next he => simp [he]
      · next he => simp [Ne.symm he]
    have hi := ih (l := l.putBond b)
    simp only [hnew, imp_and, forall_and] at hi
    constructor
    · rintro ⟨n, k, ⟨hp, hs, rfl⟩, hn⟩
      obtain ⟨hd, hps, hb, hss⟩ := hi.mp ⟨n, hn⟩
      exact ⟨⟨hb, hd⟩, ⟨hp, hps⟩, hs, hss⟩
    · rintro ⟨⟨hb, hd⟩, ⟨hp, hps⟩, hs, hss⟩
      obtain ⟨n, hn⟩ := hi.mpr ⟨hd, hps, hb, hss⟩
      exact ⟨n, _, ⟨hp, hs, rfl⟩, hn⟩

/-! The whole document. -/

/-- What has to hold of a document for it to be acceptable. -/
structure Acceptable (g : Genesis) : Prop where
  signatures : g.auth.parameters.maximumSignatures ≠ 0
  accounts : g.accounts.Pairwise fun a b => a.holder ≠ b.holder
  difficulty : g.mining.difficulty ≠ 0
  trend : g.trend.trend ≠ ""
  queues : QueuesFit [] g.channels.queues
  sequences : g.channels.sequences.Pairwise fun c d => c.chain ≠ d.chain
  sequence_chains : ∀ c ∈ g.channels.sequences, isChainId c.chain = true
  bonds : g.staking.bonds.Pairwise fun b c => b.holder ≠ c.holder
  powers : ∀ b ∈ g.staking.bonds, b.power ≠ 0

/-- There are no bonds until they are loaded. -/
theorem bonds_sequenced {enrolled channelled sequenced : Ledger}
    (h₁ : (initial g).loadAccounts [] g.accounts = .ok enrolled)
    (h₂ : ((enrolled.setWork g.mining).setTrend g.trend.trend).loadQueues [] g.channels.queues =
      .ok channelled)
    (h₃ : channelled.loadSequences [] g.channels.sequences = .ok sequenced) :
    sequenced.bonds = ∅ := by
  rw [loadSequences_frame h₃, loadQueues_frame h₂, loadAccounts_frame h₁, initial_eq]
  rfl

/-- A document starts a ledger exactly if it is acceptable. -/
theorem exists_ofGenesis_iff : (∃ l, ofGenesis g = .ok l) ↔ Acceptable g := by
  constructor
  · rintro ⟨n, hn⟩
    obtain ⟨l₁, l₂, l₃, h⟩ := ofGenesis_eq_ok.mp hn
    obtain ⟨hs, hc⟩ := exists_loadSequences_iff.mp ⟨l₃, h.sequences⟩
    obtain ⟨hb, hp, -⟩ := exists_loadBonds_iff.mp ⟨n, h.bonds⟩
    exact {
      signatures := h.signatures
      accounts := unseen_iff_distinct.mp (exists_loadAccounts_iff.mp ⟨l₁, h.accounts⟩)
      difficulty := h.difficulty
      trend := h.trend
      queues := exists_loadQueues_iff.mp ⟨l₂, h.queues⟩
      sequences := unseen_iff_distinct.mp hs
      sequence_chains := hc
      bonds := hb
      powers := hp }
  · intro h
    obtain ⟨l₁, h₁⟩ := exists_loadAccounts_iff (l := initial g).mpr (unseen_iff_distinct.mpr h.accounts)
    obtain ⟨l₂, h₂⟩ :=
      exists_loadQueues_iff (l := (l₁.setWork g.mining).setTrend g.trend.trend).mpr h.queues
    obtain ⟨l₃, h₃⟩ := exists_loadSequences_iff (l := l₂).mpr
      ⟨unseen_iff_distinct.mpr h.sequences, h.sequence_chains⟩
    have hnone : ∀ b ∈ g.staking.bonds, l₃.bonds.get? b.holder = none := by
      intro b _
      rw [bonds_sequenced h₁ h₂ h₃]
      rfl
    obtain ⟨n, h₄⟩ := exists_loadBonds_iff.mpr ⟨h.bonds, h.powers, hnone⟩
    exact ⟨n, ofGenesis_eq_ok.mpr
      ⟨l₁, l₂, l₃, h.signatures, h₁, h.difficulty, h.trend, h₂, h₃, h₄⟩⟩

end Ledger
end Appchain
