import Appchain.Proofs.LedgerChanges

/-!
# Loading documents

The sections of a genesis document are loaded one after another. Here is what
has to hold for each to be accepted, the ledger it leads to, and what it leaves
alone.
-/

namespace Appchain.Ledger

open Outcome

variable {l n : Ledger} {g : Genesis}

/-- The ledger after the parameters and the fees of a document. -/
def initial (g : Genesis) : Ledger :=
  { Ledger.empty.loadFees g.auth.collectedFees with
    memoLimit := some g.auth.parameters.maximumMemo
    signatureLimit := some g.auth.parameters.maximumSignatures }

/-- The ledgers between the sections of a document. -/
structure Loading (g : Genesis) (enrolled channelled sequenced final : Ledger) : Prop where
  signatures : g.auth.parameters.maximumSignatures ≠ 0
  accounts : (initial g).loadAccounts [] g.accounts = .ok enrolled
  difficulty : g.mining.difficulty ≠ 0
  trend : g.trend.trend ≠ ""
  queues : ((enrolled.setWork g.mining).setTrend g.trend.trend).loadQueues [] g.channels.queues =
    .ok channelled
  sequences : channelled.loadSequences [] g.channels.sequences = .ok sequenced
  bonds : g.staking.bonds.foldlM loadBond sequenced = .ok final

theorem guard_reject_eq_ok {c : Prop} [Decidable c] {name : String} {f : SectionFault}
    {x : Except GenesisError Ledger} :
    (if c then reject name f else x) = .ok n ↔ ¬ c ∧ x = .ok n := guard_eq_ok

theorem loadWork_eq_ok {w : Mining.State} :
    l.loadWork w = .ok n ↔ w.difficulty ≠ 0 ∧ n = l.setWork w := by
  unfold loadWork
  rw [guard_reject_eq_ok, ok_eq_ok]

theorem loadTrend_eq_ok {t : TrendState} :
    l.loadTrend t = .ok n ↔ t.trend ≠ "" ∧ n = l.setTrend t.trend := by
  unfold loadTrend
  rw [guard_reject_eq_ok, ok_eq_ok]

theorem loadParameters_eq_ok {p : AuthParameters} :
    l.loadParameters p = .ok n ↔ p.maximumSignatures ≠ 0 ∧
      n = { l with memoLimit := some p.maximumMemo, signatureLimit := some p.maximumSignatures } := by
  unfold loadParameters
  rw [guard_reject_eq_ok, ok_eq_ok]

theorem loadFees_limits (l : Ledger) (fees : Coins) (memo signatures : Option UInt64) :
    loadFees { l with memoLimit := memo, signatureLimit := signatures } fees =
      { l.loadFees fees with memoLimit := memo, signatureLimit := signatures } := by
  unfold loadFees
  split <;> rfl

/-- An accepted document is loaded section by section. -/
theorem ofGenesis_eq_ok :
    ofGenesis g = .ok n ↔ ∃ enrolled channelled sequenced, Loading g enrolled channelled sequenced n := by
  unfold ofGenesis
  simp only [bind_eq_ok, loadParameters_eq_ok, loadWork_eq_ok, loadTrend_eq_ok]
  constructor
  · rintro ⟨_, ⟨hs, rfl⟩, l₁, h₁, _, ⟨hd, rfl⟩, _, ⟨ht, rfl⟩, l₂, h₂, l₃, h₃, h₄⟩
    rw [loadFees_limits] at h₁
    exact ⟨l₁, l₂, l₃, hs, h₁, hd, ht, h₂, h₃, h₄⟩
  · rintro ⟨l₁, l₂, l₃, hs, h₁, hd, ht, h₂, h₃, h₄⟩
    unfold initial at h₁
    rw [← loadFees_limits] at h₁
    exact ⟨_, ⟨hs, rfl⟩, l₁, h₁, _, ⟨hd, rfl⟩, _, ⟨ht, rfl⟩, l₂, h₂, l₃, h₃, h₄⟩

theorem loadAccounts_cons_eq_ok {seen : List Address} {a : GenesisAccount}
    {as : List GenesisAccount} :
    l.loadAccounts seen (a :: as) = .ok n ↔
      a.holder ∉ seen ∧ (l.enroll a).loadAccounts (a.holder :: seen) as = .ok n := by
  rw [loadAccounts, guard_reject_eq_ok]

theorem checkChain_eq_ok {chain : String} :
    checkChain chain = .ok () ↔ isChainId chain = true := by
  unfold checkChain
  rw [mapError_eq_ok]
  unfold checkChainId
  split
  · next h => simp [h]
  · next h => simp [h]

theorem loadPacket_eq_ok {chain : String} {p : Packet} :
    l.loadPacket chain p = .ok n ↔ p.destination = chain ∧ n = l.post p := by
  unfold loadPacket
  rw [guard_reject_eq_ok, Classical.not_not, ok_eq_ok]

theorem loadQueues_cons_eq_ok {seen : List String} {q : PacketQueue} {qs : List PacketQueue} :
    l.loadQueues seen (q :: qs) = .ok n ↔ isChainId q.chain = true ∧ q.chain ∉ seen ∧
      ∃ k, q.packets.foldlM (loadPacket q.chain) l = .ok k ∧
        k.loadQueues (q.chain :: seen) qs = .ok n := by
  rw [loadQueues, check_bind_eq_ok, checkChain_eq_ok, guard_reject_eq_ok, bind_eq_ok]

theorem loadSequences_cons_eq_ok {seen : List String} {c : ChainSequence}
    {cs : List ChainSequence} :
    l.loadSequences seen (c :: cs) = .ok n ↔ isChainId c.chain = true ∧ c.chain ∉ seen ∧
      (l.setSequence c.chain c.sequence).loadSequences (c.chain :: seen) cs = .ok n := by
  rw [loadSequences, check_bind_eq_ok, checkChain_eq_ok, guard_reject_eq_ok]

theorem loadBond_eq_ok {b : Bond} :
    l.loadBond b = .ok n ↔ b.power ≠ 0 ∧ l.bonds.get? b.holder = none ∧ n = l.putBond b := by
  unfold loadBond
  rw [guard_reject_eq_ok, guard_reject_eq_ok, Option.not_isSome_iff_eq_none, ok_eq_ok]

/-! What the sections leave alone. -/

theorem enroll_frame (l : Ledger) (a : GenesisAccount) : SameButAccounts l (l.enroll a) := rfl

theorem loadAccounts_frame {seen : List Address} {as : List GenesisAccount}
    (h : l.loadAccounts seen as = .ok n) : SameButAccounts l n := by
  induction as generalizing l seen with
  | nil =>
    cases h
    exact .refl _
  | cons a as ih => exact (enroll_frame l a).trans (ih (loadAccounts_cons_eq_ok.mp h).2)

theorem loadQueues_frame {seen : List String} {qs : List PacketQueue}
    (h : l.loadQueues seen qs = .ok n) :
    n = { l with lengths := n.lengths, packets := n.packets } := by
  induction qs generalizing l seen with
  | nil =>
    cases h
    rfl
  | cons q qs ih =>
    obtain ⟨-, -, k, hk, h⟩ := loadQueues_cons_eq_ok.mp h
    have hf : k = { l with lengths := k.lengths, packets := k.packets } := by
      refine foldlM_preserves (P := fun k => k = { l with lengths := k.lengths, packets := k.packets })
        (fun p _ a b ha hb => ?_) rfl hk
      obtain ⟨-, rfl⟩ := loadPacket_eq_ok.mp hb
      rw [ha]
      rfl
    have hn := ih h
    rw [hf] at hn
    exact hn

theorem loadSequences_frame {seen : List String} {cs : List ChainSequence}
    (h : l.loadSequences seen cs = .ok n) : n = { l with sequences := n.sequences } := by
  induction cs generalizing l seen with
  | nil =>
    cases h
    rfl
  | cons c cs ih =>
    obtain ⟨-, -, h⟩ := loadSequences_cons_eq_ok.mp h
    have hn := ih h
    exact hn

theorem loadBonds_frame {bs : List Bond} (h : bs.foldlM loadBond l = .ok n) :
    n = { l with bonds := n.bonds } := by
  refine foldlM_preserves (P := fun k => k = { l with bonds := k.bonds })
    (fun b _ a c ha hc => ?_) rfl h
  obtain ⟨-, -, rfl⟩ := loadBond_eq_ok.mp hc
  rw [ha]
  rfl

theorem fees_loadFees (h : l.fees = none) (fees : Coins) :
    (l.loadFees fees).fees.getD .empty = fees := by
  unfold loadFees
  split
  · next he =>
    rw [h]
    exact (Coins.eq_empty_of_isEmpty he).symm
  · rfl

/-- Nothing is listed of the ledger that the lists of a document are loaded into. -/
theorem initial_eq (g : Genesis) :
    initial g = { initial g with
      accounts := ∅, bonds := ∅, lengths := ∅, sequences := ∅, packets := fun _ _ => none } := by
  unfold initial loadFees
  split <;> rfl

end Appchain.Ledger
