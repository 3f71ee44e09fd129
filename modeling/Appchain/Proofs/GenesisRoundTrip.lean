import Appchain.Proofs.Acceptance
import Appchain.Proofs.Queues
import Appchain.Proofs.Totals

/-!
# Loading a document and listing it again

Every section that is loaded is listed again by the ledger, in the order of the
keys. Only a queue without packets leaves nothing behind. A list whose keys
ascend is determined by its members, so documents that are listed from ledgers
are equal as soon as they are equal up to order.
-/

namespace Appchain

open Outcome Std

/-- The keys of a list ascend. -/
def Ascending {α K : Type} [Ord K] (key : α → K) (as : List α) : Prop :=
  as.Pairwise fun a b => compare (key a) (key b) = .lt

namespace Ascending

variable {α K V : Type} [Ord K] [TransOrd K] {key : α → K} {as bs : List α}

theorem distinct (h : Ascending key as) : as.Pairwise fun a b => key a ≠ key b := by
  apply h.imp
  intro a b hlt he
  rw [he, ReflOrd.compare_self] at hlt
  cases hlt

theorem eq_of_perm (ha : Ascending key as) (hb : Ascending key bs) (h : as.Perm bs) : as = bs := by
  refine h.eq_of_pairwise (fun a b _ _ hab hba => ?_) ha hb
  rw [OrientedCmp.gt_of_lt hab] at hba
  cases hba

omit [TransOrd K] in
/-- What is listed of the entries of a map, each under its key. -/
theorem of_map (m : OrderedMap K V) {f : K × V → α} (h : ∀ e ∈ m.entries, key (f e) = e.1) :
    Ascending key (m.entries.map f) := by
  refine List.pairwise_map.mpr (m.ascending.imp_of_mem fun {a b} ha hb hlt => ?_)
  rw [h a ha, h b hb]
  exact hlt

end Ascending

/-- The keys of a map have all been seen. -/
def KeysSeen {α K V : Type} [Ord K] (key : α → K) (m : OrderedMap K V) (seen : List α) : Prop :=
  ∀ a, m.get? (key a) ≠ none → a ∈ seen

namespace KeysSeen

variable {α K V : Type} [Ord K] {key : α → K} {m : OrderedMap K V} {seen : List α} {a : α}

theorem empty : KeysSeen key (∅ : OrderedMap K V) seen := fun _ h => absurd rfl h

theorem get?_eq_none (h : KeysSeen key m seen) (ha : a ∉ seen) : m.get? (key a) = none :=
  Classical.byContradiction fun hne => ha (h a hne)

theorem insert [TransOrd K] [LawfulEqOrd K] [DecidableEq K] (h : KeysSeen key m seen)
    (hkey : ∀ a b, key a = key b → a = b) (a : α) (v : V) :
    KeysSeen key (m.insert (key a) v) (a :: seen) := by
  intro b hb
  rw [OrderedMap.get?_insert] at hb
  by_cases he : key b = key a
  · rw [hkey b a he]
    exact List.mem_cons_self ..
  · rw [if_neg he] at hb
    exact List.mem_cons_of_mem _ (h b hb)

end KeysSeen

/-- Two documents that differ in the order of their lists at most. -/
structure Genesis.SameUpToOrder (g h : Genesis) : Prop where
  accounts : g.accounts.Perm h.accounts
  mining : g.mining = h.mining
  trend : g.trend = h.trend
  auth : g.auth = h.auth
  queues : g.channels.queues.Perm h.channels.queues
  sequences : g.channels.sequences.Perm h.channels.sequences
  bonds : g.staking.bonds.Perm h.staking.bonds

/-- The document without its empty queues. -/
def Genesis.withoutEmptyQueues (g : Genesis) : Genesis :=
  { g with channels := ⟨g.channels.queues.filter fun q => !q.packets.isEmpty, g.channels.sequences⟩ }

def PacketQueue.label (q : PacketQueue) : Label := ⟨q.chain⟩

def ChainSequence.label (c : ChainSequence) : Label := ⟨c.chain⟩

theorem packetsTo_eq_self {chain : String} {ps : List Packet}
    (h : ∀ p ∈ ps, p.destination = chain) : packetsTo chain ps = ps := by
  unfold packetsTo
  exact List.filter_eq_self.mpr fun p hp => decide_eq_true (h p hp)

theorem packetsTo_eq_nil {chain : String} {ps : List Packet}
    (h : ∀ p ∈ ps, p.destination ≠ chain) : packetsTo chain ps = [] := by
  unfold packetsTo
  exact List.filter_eq_nil_iff.mpr fun p hp => by simpa using h p hp

namespace QueuesFit

variable {seen : List String} {qs : List PacketQueue}

/-- The packets to a chain are those of its queue. -/
theorem packetsTo_eq (h : QueuesFit seen qs) {q : PacketQueue} (hq : q ∈ qs) :
    packetsTo q.chain (qs.flatMap PacketQueue.packets) = q.packets := by
  induction qs generalizing seen with
  | nil => cases hq
  | cons r qs ih =>
    obtain ⟨-, -, ha, hf⟩ := queuesFit_cons.mp h
    have hr : ∀ s ∈ qs, s.chain ≠ r.chain :=
      fun s hs he => hf.unseen.2 s hs (he ▸ List.mem_cons_self ..)
    rw [List.flatMap_cons, packetsTo_append]
    rcases List.mem_cons.mp hq with rfl | hq
    · have hrest : packetsTo q.chain (qs.flatMap PacketQueue.packets) = [] := by
        apply packetsTo_eq_nil
        intro p hp
        obtain ⟨s, hs, hp⟩ := List.mem_flatMap.mp hp
        rw [hf.addressed s hs p hp]
        exact hr s hs
      rw [packetsTo_eq_self ha, hrest, List.append_nil]
    · have hhead : packetsTo q.chain r.packets = [] := by
        apply packetsTo_eq_nil
        intro p hp
        rw [ha p hp]
        exact (hr q hq).symm
      rw [hhead, ih hf hq]
      rfl

theorem exists_queue (h : QueuesFit seen qs) {chain : String}
    (hc : packetsTo chain (qs.flatMap PacketQueue.packets) ≠ []) : ∃ q ∈ qs, q.chain = chain := by
  obtain ⟨p, hp⟩ := List.exists_mem_of_ne_nil _ hc
  obtain ⟨hp, hd⟩ := List.mem_filter.mp hp
  obtain ⟨q, hq, hpq⟩ := List.mem_flatMap.mp hp
  exact ⟨q, hq, (h.addressed q hq p hpq).symm.trans (of_decide_eq_true hd)⟩

theorem countable_iff (h : QueuesFit seen qs) :
    Countable (qs.flatMap PacketQueue.packets) ↔ ∀ q ∈ qs, q.packets.length < UInt64.size := by
  constructor
  · intro hc q hq
    have hn := hc q.chain
    rw [h.packetsTo_eq hq] at hn
    exact hn
  · intro hn chain
    by_cases hc : packetsTo chain (qs.flatMap PacketQueue.packets) = []
    · rw [hc]
      decide
    · obtain ⟨q, hq, rfl⟩ := h.exists_queue hc
      rw [h.packetsTo_eq hq]
      exact hn q hq

end QueuesFit

namespace Ledger

variable {l n : Ledger} {g : Genesis}

/-! What is listed of a ledger. -/

def listedAccounts (l : Ledger) : List GenesisAccount :=
  l.accounts.entries.map fun e => .ofAccount e.2

def listedSequences (l : Ledger) : List ChainSequence :=
  l.sequences.entries.map fun e => ⟨e.1.text, e.2⟩

def listedBonds (l : Ledger) : List Bond := l.bonds.entries.map Prod.snd

/-- The accounts are listed with the ones that were there before. -/
theorem perm_loadAccounts {seen : List Address} {as : List GenesisAccount}
    (hs : KeysSeen id l.accounts seen) (h : l.loadAccounts seen as = .ok n) :
    n.listedAccounts.Perm (as ++ l.listedAccounts) := by
  induction as generalizing l seen with
  | nil =>
    cases h
    exact .refl _
  | cons a as ih =>
    obtain ⟨ha, h⟩ := loadAccounts_cons_eq_ok.mp h
    let x := (l.create a.holder).1.withCoins a.coins
    have hseen : KeysSeen id (l.enroll a).accounts (a.holder :: seen) :=
      hs.insert (fun _ _ he => he) a.holder x
    have hp : (l.enroll a).listedAccounts.Perm (a :: l.listedAccounts) :=
      (OrderedMap.perm_insert (hs.get?_eq_none ha) x).map
        fun e : Address × Account => GenesisAccount.ofAccount e.2
    exact (ih hseen h).trans ((hp.append_left as).trans List.perm_middle)

theorem perm_loadSequences {seen : List String} {cs : List ChainSequence}
    (hs : KeysSeen Label.mk l.sequences seen) (h : l.loadSequences seen cs = .ok n) :
    n.listedSequences.Perm (cs ++ l.listedSequences) := by
  induction cs generalizing l seen with
  | nil =>
    cases h
    exact .refl _
  | cons c cs ih =>
    obtain ⟨-, hc, h⟩ := loadSequences_cons_eq_ok.mp h
    have hseen : KeysSeen Label.mk (l.setSequence c.chain c.sequence).sequences (c.chain :: seen) :=
      hs.insert (fun _ _ he => congrArg Label.text he) c.chain c.sequence
    have hp : (l.setSequence c.chain c.sequence).listedSequences.Perm (c :: l.listedSequences) :=
      (OrderedMap.perm_insert (hs.get?_eq_none hc) c.sequence).map
        fun e : Label × UInt64 => (⟨e.1.text, e.2⟩ : ChainSequence)
    exact (ih hseen h).trans ((hp.append_left cs).trans List.perm_middle)

theorem perm_loadBonds {bs : List Bond} (h : bs.foldlM loadBond l = .ok n) :
    n.listedBonds.Perm (bs ++ l.listedBonds) := by
  induction bs generalizing l with
  | nil =>
    cases h
    exact .refl _
  | cons b bs ih =>
    rw [List.foldlM_cons] at h
    obtain ⟨k, hk, h⟩ := bind_eq_ok.mp h
    obtain ⟨-, hnew, rfl⟩ := loadBond_eq_ok.mp hk
    have hp : (l.putBond b).listedBonds.Perm (b :: l.listedBonds) :=
      (OrderedMap.perm_insert hnew b).map Prod.snd
    exact (ih h).trans ((hp.append_left bs).trans List.perm_middle)

/-! Queues. -/

theorem length_packetsFrom_le (l : Ledger) (chain : String) (m : Nat) (i : UInt64) :
    (l.packetsFrom chain m i).length ≤ m := by
  induction m generalizing i with
  | zero => exact Nat.le_refl 0
  | succ m ih =>
    have hi := ih (i + 1)
    have ho := (l.packets chain i).length_toList_le
    rw [packetsFrom, List.length_append]
    omega

/-- The packets from an index on are the rest of the queue. -/
theorem packetsFrom_eq {xs : List Packet} {chain : String}
    (h : ∀ i : UInt64, l.packets chain i = xs[i.toNat]?) (hx : xs.length < UInt64.size) (m : Nat)
    (i : UInt64) (hm : i.toNat + m = xs.length) : l.packetsFrom chain m i = xs.drop i.toNat := by
  induction m generalizing i with
  | zero => exact (List.drop_of_length_le (Nat.le_of_eq hm.symm)).symm
  | succ m ih =>
    have hlt : i.toNat < xs.length := by omega
    have hnext : (i + 1).toNat = i.toNat + 1 := by
      rw [UInt64.toNat_add]
      exact Nat.mod_eq_of_lt (Nat.lt_of_le_of_lt hlt hx)
    rw [packetsFrom, h, List.getElem?_eq_getElem hlt, ih (i + 1) (by omega), hnext,
      List.drop_eq_getElem_cons hlt]
    rfl

theorem Queued.queue_eq {ps : List Packet} (h : l.Queued ps) {chain : String}
    (hc : (packetsTo chain ps).length < UInt64.size) :
    l.queue chain = ⟨chain, packetsTo chain ps⟩ := by
  have hn : (l.length chain).toNat = (packetsTo chain ps).length := by
    rw [h.length_eq]
    exact UInt64.toNat_ofNat_of_lt hc
  unfold queue
  rw [packetsFrom_eq (h.packets_eq chain) hc _ 0 (by rw [hn]; exact Nat.zero_add _)]
  rfl

theorem ascending_queues (l : Ledger) :
    Ascending PacketQueue.label l.channels.queues :=
  .of_map l.lengths fun _ _ => rfl

/-- A queue is listed if it is one of the document and has packets. -/
theorem mem_queues_iff (hq : l.Queued g.sends) (hf : QueuesFit [] g.channels.queues)
    (hc : Countable g.sends) {q : PacketQueue} :
    q ∈ l.channels.queues ↔ q ∈ g.channels.queues ∧ q.packets ≠ [] := by
  constructor
  · intro h
    obtain ⟨e, he, rfl⟩ := List.mem_map.mp h
    have hg := (OrderedMap.mem_entries_iff _ _ _).mp he
    have hne : packetsTo e.1.text g.sends ≠ [] := by
      intro h0
      have hl := hq.lengths_eq e.1.text
      rw [if_pos h0] at hl
      rw [hl] at hg
      cases hg
    obtain ⟨r, hr, hchain⟩ := hf.exists_queue hne
    have hp : packetsTo e.1.text g.sends = r.packets := by
      rw [← hchain]
      exact hf.packetsTo_eq hr
    rw [hq.queue_eq (hc e.1.text), hp, ← hchain]
    rw [hp] at hne
    exact ⟨hr, hne⟩
  · rintro ⟨h, hne⟩
    have hp : packetsTo q.chain g.sends = q.packets := hf.packetsTo_eq h
    have hl := hq.lengths_eq q.chain
    rw [hp, if_neg hne] at hl
    refine List.mem_map.mpr ⟨_, (OrderedMap.mem_entries_iff _ _ _).mpr hl, ?_⟩
    change l.queue q.chain = q
    rw [hq.queue_eq (hc q.chain), hp]

/-- The queues that are not empty are listed. -/
theorem perm_queues (hq : l.Queued g.sends) (hf : QueuesFit [] g.channels.queues)
    (hc : Countable g.sends) :
    l.channels.queues.Perm (g.channels.queues.filter fun q => !q.packets.isEmpty) := by
  have hleft : l.channels.queues.Nodup :=
    l.ascending_queues.distinct.imp fun hne he => hne (congrArg PacketQueue.label he)
  have hright : (g.channels.queues.filter fun q => !q.packets.isEmpty).Nodup :=
    (hf.unseen.1.imp fun hne he => hne (congrArg PacketQueue.chain he)).filter _
  apply (List.perm_ext_iff_of_nodup hleft hright).mpr
  intro q
  rw [mem_queues_iff hq hf hc, List.mem_filter, Bool.not_eq_true', List.isEmpty_eq_false_iff]

/-! The whole document. -/

namespace Loading

variable {enrolled channelled sequenced : Ledger} (h : Loading g enrolled channelled sequenced n)
include h

/-- What a document starts a ledger with, apart from its lists. -/
theorem final_eq :
    n = { n with
      trend := some g.trend.trend
      accounts := enrolled.accounts
      difficulty := some g.mining.difficulty
      count := some g.mining.count
      lengths := channelled.lengths
      packets := channelled.packets
      sequences := sequenced.sequences
      fees := (Ledger.empty.loadFees g.auth.collectedFees).fees
      memoLimit := some g.auth.parameters.maximumMemo
      signatureLimit := some g.auth.parameters.maximumSignatures } := by
  have hb := loadBonds_frame h.bonds
  rw [loadSequences_frame h.sequences, loadQueues_frame h.queues, loadAccounts_frame h.accounts] at hb
  rw [hb]
  rfl

theorem perm_accounts : n.listedAccounts.Perm g.accounts := by
  have hi : (initial g).accounts = ∅ := by
    rw [initial_eq]
  have hp := perm_loadAccounts (hi ▸ .empty) h.accounts
  unfold listedAccounts at hp ⊢
  rw [hi] at hp
  rw [h.final_eq]
  exact hp.trans (.of_eq (List.append_nil _))

theorem perm_sequences : n.listedSequences.Perm g.channels.sequences := by
  have hi : channelled.sequences = ∅ := by
    rw [loadQueues_frame h.queues, loadAccounts_frame h.accounts, initial_eq]
    rfl
  have hp := perm_loadSequences (hi ▸ .empty) h.sequences
  unfold listedSequences at hp ⊢
  rw [hi] at hp
  rw [h.final_eq]
  exact hp.trans (.of_eq (List.append_nil _))

theorem perm_bonds : n.listedBonds.Perm g.staking.bonds := by
  have hp := perm_loadBonds h.bonds
  unfold listedBonds at hp ⊢
  rw [bonds_sequenced h.accounts h.queues h.sequences] at hp
  exact hp.trans (.of_eq (List.append_nil _))

end Loading

/-- What is listed of a ledger whose work is known. -/
def listed (l : Ledger) (work : Mining.State) : Genesis where
  accounts := l.listedAccounts
  mining := work
  trend := ⟨l.trend.getD ""⟩
  auth := ⟨l.parameters, l.fees.getD .empty⟩
  channels := l.channels
  staking := ⟨l.listedBonds⟩

theorem genesis_eq_ok {difficulty count : UInt64} (hd : l.difficulty = some difficulty)
    (hc : l.count = some count) : l.genesis = .ok (l.listed ⟨difficulty, count⟩) := by
  unfold genesis work require
  rw [hd, hc]
  rfl

/-- The ledger of an acceptable document lists the document again, without its empty queues. -/
theorem sameUpToOrder_listed (h : ofGenesis g = .ok l) (hc : Countable g.sends) :
    (l.listed g.mining).SameUpToOrder g.withoutEmptyQueues := by
  obtain ⟨l₁, l₂, l₃, hload⟩ := ofGenesis_eq_ok.mp h
  exact {
    accounts := hload.perm_accounts
    mining := rfl
    trend := by
      change TrendState.mk (l.trend.getD "") = g.trend
      rw [hload.final_eq]
      rfl
    auth := by
      change AuthState.mk l.parameters (l.fees.getD .empty) = g.auth
      rw [hload.final_eq]
      change AuthState.mk _ ((Ledger.empty.loadFees g.auth.collectedFees).fees.getD .empty) = g.auth
      rw [fees_loadFees rfl]
      rfl
    queues := perm_queues (.of_genesis hc h) (exists_loadQueues_iff.mp ⟨l₂, hload.queues⟩) hc
    sequences := hload.perm_sequences
    bonds := hload.perm_bonds }

/-- The work is that of the document. -/
theorem work_of_ofGenesis (h : ofGenesis g = .ok l) :
    l.difficulty = some g.mining.difficulty ∧ l.count = some g.mining.count := by
  obtain ⟨l₁, l₂, l₃, hload⟩ := ofGenesis_eq_ok.mp h
  rw [hload.final_eq]
  exact ⟨rfl, rfl⟩

theorem genesis_of_ofGenesis (h : ofGenesis g = .ok l) : l.genesis = .ok (l.listed g.mining) := by
  obtain ⟨hd, hc⟩ := work_of_ofGenesis h
  exact genesis_eq_ok hd hc

/-- The document as it was is listed exactly if no queue is empty or too long to be counted. -/
theorem sameUpToOrder_listed_iff (h : ofGenesis g = .ok l) :
    (l.listed g.mining).SameUpToOrder g ↔
      ∀ q ∈ g.channels.queues, q.packets ≠ [] ∧ q.packets.length < UInt64.size := by
  obtain ⟨l₁, l₂, l₃, hload⟩ := ofGenesis_eq_ok.mp h
  have hf := exists_loadQueues_iff.mp ⟨l₂, hload.queues⟩
  constructor
  · intro hs
    have hn : ∀ q ∈ g.channels.queues, q.packets.length < UInt64.size := by
      intro q hq
      obtain ⟨e, -, rfl⟩ := List.mem_map.mp (hs.queues.mem_iff.mpr hq)
      exact Nat.lt_of_le_of_lt (length_packetsFrom_le l _ _ _) (UInt64.toNat_lt_size _)
    have hp := (sameUpToOrder_listed h (hf.countable_iff.mpr hn)).queues.symm.trans hs.queues
    have hne := List.length_filter_eq_length_iff.mp hp.length_eq
    intro q hq
    refine ⟨?_, hn q hq⟩
    have hq := hne q hq
    rw [Bool.not_eq_true', List.isEmpty_eq_false_iff] at hq
    exact hq
  · intro hq
    have hs := sameUpToOrder_listed h (hf.countable_iff.mpr fun q hm => (hq q hm).2)
    have hfilter : (g.channels.queues.filter fun q => !q.packets.isEmpty) = g.channels.queues := by
      apply List.filter_eq_self.mpr
      intro q hm
      rw [Bool.not_eq_true', List.isEmpty_eq_false_iff]
      exact (hq q hm).1
    have hqueues := hs.queues
    change l.channels.queues.Perm (g.channels.queues.filter fun q => !q.packets.isEmpty) at hqueues
    rw [hfilter] at hqueues
    exact { hs with queues := hqueues }

end Ledger
end Appchain
