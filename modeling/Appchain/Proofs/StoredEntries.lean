import Appchain.Proofs.Queues

/-!
# Stored entries

After every run each entry of each store decodes to what its key says is there.
So nothing that a transaction reads can be broken, and whatever bytes are checked
or delivered, the application answers with a response.
-/

namespace Appchain

open Outcome

/-- The tree of the trend. -/
structure MainEntries (t : Tree) : Prop where
  trend : ∃ v trend, t.get? Trend.key = some v ∧ Bytes.toString? v = some trend ∧ trend ≠ ""
  only : t.Only (· = Trend.key)

/-- An account under its address, in valid coins and with the key of that address, if any. -/
def AccountEntry (k v : Bytes) : Prop :=
  ∃ x : Account, k = Accounts.key x.address ∧ TypeRegistry.standard.ofBytes v = .ok x ∧
    x.coins.Valid ∧ ∀ key, x.publicKey = some key →
      ∃ bytes, Hex.decode key = .ok bytes ∧ Address.ofPublicKey bytes = x.address

structure AccountEntries (t : Tree) : Prop where
  entries : ∀ k v, t.get? k = some v →
    (k = Accounts.counterKey ∧ ∃ n, Layout.word.decode v = .ok n) ∨ AccountEntry k v

structure WorkEntries (t : Tree) : Prop where
  difficulty : ∃ v n, t.get? (Bytes.ofString Mining.difficultyName) = some v ∧
    Layout.word.decode v = .ok n ∧ 0 < n
  count : ∃ v n, t.get? (Bytes.ofString Mining.countName) = some v ∧ Layout.word.decode v = .ok n
  only : t.Only fun k =>
    k = Bytes.ofString Mining.difficultyName ∨ k = Bytes.ofString Mining.countName

/-- A packet under the chain that it goes to, with an index that it keeps. -/
def PacketEntry (k v : Bytes) : Prop :=
  ∃ (p : Packet) (i : UInt64), k = Channels.queueKey p.destination i ∧
    Packet.wire.binary.decode v = .ok p ∧ p.coins.Valid

/-- A word under a chain id below a root. -/
def ChainEntry (key : String → Bytes) (k v : Bytes) : Prop :=
  ∃ (chain : String) (n : UInt64), k = key chain ∧ isChainId chain = true ∧
    Layout.word.decode v = .ok n

/-- A chain has its length, unless that is zero, and exactly the packets before it. -/
structure QueueEntries (t : Tree) (chain : String) (n : UInt64) : Prop where
  length : (t.get? (Channels.lengthKey chain)).map Layout.word.decode =
    if n = 0 then none else some (.ok n)
  before : ∀ i < n, ∃ v p, t.get? (Channels.queueKey chain i) = some v ∧
    Packet.wire.binary.decode v = .ok p ∧ p.destination = chain
  after : ∀ i, n ≤ i → t.get? (Channels.queueKey chain i) = none

structure PacketEntries (t : Tree) : Prop where
  entries : ∀ k v, t.get? k = some v →
    PacketEntry k v ∨ ChainEntry Channels.lengthKey k v ∨ ChainEntry Channels.sequenceKey k v
  queues : ∀ chain, ∃ n, QueueEntries t chain n

/-- A bond with power under its address. -/
def BondEntry (k v : Bytes) : Prop :=
  ∃ b : Bond, k = b.holder.bytes ∧ Bond.wire.binary.decode v = .ok b ∧ 0 < b.power

def FeeEntry (k v : Bytes) : Prop :=
  k = Fees.key ∧ ∃ fees, Coins.wire.binary.decode v = .ok fees ∧ fees.Valid

structure ParameterEntries (t : Tree) : Prop where
  memo : ∃ v n, t.get? Accounts.memoPath = some v ∧ Json.Shape.word.decode v = .ok n
  signatures : ∃ v n, t.get? Accounts.signaturesPath = some v ∧ Json.Shape.word.decode v = .ok n ∧
    0 < n
  only : t.Only fun k => k = Accounts.memoPath ∨ k = Accounts.signaturesPath

/-- A mark of a parameter that has been set. -/
def MarkEntry (k v : Bytes) : Prop :=
  (k = Accounts.memoPath ∨ k = Accounts.signaturesPath) ∧ v = []

def Tree.Each (p : Bytes → Bytes → Prop) (t : Tree) : Prop := ∀ k v, t.get? k = some v → p k v

namespace App

/-- What a store holds as of the current block. -/
def tree (a : App) (key : StoreKey) : Except StoreError Tree := (a.store.view key).map View.contents

/-- The store can be opened, and its tree is as asked. -/
def Has (a : App) (key : StoreKey) (p : Tree → Prop) : Prop := ∃ t, a.tree key = .ok t ∧ p t

/-- Every entry of every store decodes to its type and agrees with its key. -/
structure WellStored (a : App) : Prop where
  main : a.Has .main MainEntries
  accounts : a.Has .accounts AccountEntries
  work : a.Has .work WorkEntries
  packets : a.Has .packets PacketEntries
  bonds : a.Has .bonds (Tree.Each BondEntry)
  fees : a.Has .fees (Tree.Each FeeEntry)
  parameters : a.Has .parameters ParameterEntries
  marks : a.Has .changedParameters (Tree.Each MarkEntry)

end App

theorem UInt64.pos_of_ne_zero {n : UInt64} (h : n ≠ 0) : 0 < n := by
  rw [UInt64.lt_iff_toNat_lt]
  exact Nat.pos_of_ne_zero fun h0 => h (UInt64.toNat.inj h0)

namespace Ledger

variable {l : Ledger} {t : Tree} {ps : List Packet}

theorem WellFormed.mainEntries (h : l.WellFormed) (ht : MainTree t l.trend) : MainEntries t where
  trend := by
    obtain ⟨trend, hs, hne⟩ := h.trend
    refine ⟨Bytes.ofString trend, trend, ?_, Bytes.toString?_ofString trend, hne⟩
    rw [ht.trend_eq, hs]
    rfl
  only := ht.only

theorem WellFormed.accountEntries (h : l.WellFormed) (ht : AccountTree t l.accounts l.counter) :
    AccountEntries t where
  entries k v hk := by
    rcases ht.only k v hk with rfl | hp
    · left
      refine ⟨rfl, ?_⟩
      rw [ht.counter_eq] at hk
      obtain ⟨n, -, rfl⟩ := Option.map_eq_some_iff.mp hk
      exact ⟨n, (Layout.readsBack_word n).decode_write⟩
    · right
      obtain ⟨j, rfl⟩ := hp
      obtain ⟨a, rfl⟩ := ht.accounts_eq.named j v hk
      rw [ht.accounts_eq.get?_eq] at hk
      obtain ⟨x, hx, rfl⟩ := Option.map_eq_some_iff.mp hk
      have hf := h.accounts a x hx
      refine ⟨x, ?_, Account.ofBytes_bytes (ht.valid a x hx), ht.valid a x hx, ?_⟩
      · rw [hf.address_eq]
        rfl
      · rw [hf.address_eq]
        exact hf.key_of

theorem WellFormed.workEntries (h : l.WellFormed) (ht : WorkTree t l.difficulty l.count) :
    WorkEntries t := by
  obtain ⟨difficulty, count, hd, hc, hne⟩ := h.work
  rw [hd, hc] at ht
  exact {
    difficulty := ⟨_, difficulty, ht.difficulty_eq, (Layout.readsBack_word _).decode_write,
      UInt64.pos_of_ne_zero hne⟩
    count := ⟨_, count, ht.count_eq, (Layout.readsBack_word _).decode_write⟩
    only := ht.only }

/-- What is filed below a root of chains is a word under a chain id. -/
theorem chainEntry_of_files {root : String} {key : String → Bytes} {m : OrderedMap Label UInt64}
    (hkey : ∀ c, key c = Bytes.ofString root ++ FileName.bytes (⟨c⟩ : Label))
    (hf : t.Files (Bytes.ofString root) Layout.word.write m)
    (hm : ∀ c n, m.get? c = some n → isChainId c.text = true) {k v : Bytes}
    (hp : Bytes.ofString root <+: k) (hk : t.get? k = some v) : ChainEntry key k v := by
  obtain ⟨j, rfl⟩ := hp
  obtain ⟨c, rfl⟩ := hf.named j v hk
  rw [hf.get?_eq] at hk
  obtain ⟨n, hn, rfl⟩ := Option.map_eq_some_iff.mp hk
  exact ⟨c.text, n, (hkey c.text).symm, hm c n hn, (Layout.readsBack_word n).decode_write⟩

theorem WellFormed.queueEntries (h : l.WellFormed) (hq : l.Queued ps) (hc : Countable ps)
    (ht : PacketTree t l.lengths l.sequences l.packets) (chain : String) :
    QueueEntries t chain (UInt64.ofNat (packetsTo chain ps).length) := by
  have hn : (UInt64.ofNat (packetsTo chain ps).length).toNat = (packetsTo chain ps).length :=
    UInt64.toNat_ofNat_of_lt (hc chain)
  constructor
  · rw [Channels.lengthKey_eq, ht.lengths_eq.get?_eq, hq.lengths_eq]
    by_cases he : packetsTo chain ps = []
    · rw [he]
      rfl
    · have hne : UInt64.ofNat (packetsTo chain ps).length ≠ 0 := by
        intro h0
        rw [h0] at hn
        exact he (List.length_eq_zero_iff.mp hn.symm)
      rw [if_neg he, if_neg hne]
      simp only [Option.map_some, (Layout.readsBack_word _).decode_write]
  · intro i hi
    rw [UInt64.lt_iff_toNat_lt, hn] at hi
    have hp : l.packets chain i = some (packetsTo chain ps)[i.toNat] := by
      rw [hq.packets_eq]
      exact List.getElem?_eq_getElem hi
    rw [ht.packets_eq, hp]
    exact ⟨_, _, rfl, (Packet.portable 0 (ht.valid chain i _ hp)).binary.decode_write,
      h.packets chain i _ hp⟩
  · intro i hi
    rw [UInt64.le_iff_toNat_le, hn] at hi
    rw [ht.packets_eq, hq.packets_eq, List.getElem?_eq_none hi]
    rfl

theorem WellFormed.packetEntries (h : l.WellFormed) (hq : l.Queued ps) (hc : Countable ps)
    (ht : PacketTree t l.lengths l.sequences l.packets) : PacketEntries t where
  entries k v hk := by
    rcases ht.only k v hk with ⟨c, i, rfl⟩ | hp | hp
    · left
      rw [ht.packets_eq] at hk
      obtain ⟨p, hp, rfl⟩ := Option.map_eq_some_iff.mp hk
      refine ⟨p, i, ?_, (Packet.portable 0 (ht.valid c i p hp)).binary.decode_write, ht.valid c i p hp⟩
      rw [h.packets c i p hp]
    · exact .inr (.inl (chainEntry_of_files Channels.lengthKey_eq ht.lengths_eq h.lengths hp hk))
    · exact .inr (.inr (chainEntry_of_files Channels.sequenceKey_eq ht.sequences_eq h.sequences hp hk))
  queues chain := ⟨_, h.queueEntries hq hc ht chain⟩

theorem WellFormed.parameterEntries (h : l.WellFormed)
    (ht : ParameterTree t l.memoLimit l.signatureLimit) : ParameterEntries t := by
  obtain ⟨memo, signatures, hm, hs, hne⟩ := h.limits
  rw [hm, hs] at ht
  exact {
    memo := ⟨_, memo, ht.memo_eq, Accounts.decode_encode_word memo⟩
    signatures := ⟨_, signatures, ht.signatures_eq, Accounts.decode_encode_word signatures,
      UInt64.pos_of_ne_zero hne⟩
    only := ht.only }

theorem WellFormed.bondEntries (h : l.WellFormed) (ht : t.Files [] Bond.wire.binary.write l.bonds) :
    t.Each BondEntry := by
  intro k v hk
  obtain ⟨a, rfl⟩ := ht.named k v hk
  have hg := ht.get?_eq a
  rw [List.nil_append, hk] at hg
  obtain ⟨b, hb, rfl⟩ := Option.map_eq_some_iff.mp hg.symm
  obtain ⟨ha, hp⟩ := h.bonds a b hb
  refine ⟨b, ?_, (Bond.portable 0 b).binary.decode_write, UInt64.pos_of_ne_zero hp⟩
  rw [ha]
  rfl

theorem feeEntries (ht : FeeTree t l.fees) : t.Each FeeEntry := by
  intro k v hk
  obtain rfl := ht.only k v hk
  rw [ht.fees_eq] at hk
  obtain ⟨f, hf, rfl⟩ := Option.map_eq_some_iff.mp hk
  exact ⟨rfl, f, (Coins.portable 0 (ht.valid f hf)).binary.decode_write, ht.valid f hf⟩

end Ledger
namespace App

variable {a : App} {l : Ledger} {ps : List Packet}

theorem Holds.has (h : a.Holds l) {key : StoreKey} (hk : key ∈ StoreKey.application)
    {p : Tree → Prop} (hp : p (a.store.contents key)) : a.Has key p := by
  obtain ⟨v, hv, -, hc⟩ := (MultiStore.assembled_iff.mp h.assembled).view hk
  refine ⟨a.store.contents key, ?_, hp⟩
  unfold tree
  rw [hv, ← hc]
  rfl

theorem Holds.wellStored (h : a.Holds l) (hl : l.WellFormed) (hq : l.Queued ps)
    (hc : Countable ps) : a.WellStored where
  main := h.has (by decide) (hl.mainEntries h.stored.main)
  accounts := h.has (by decide) (hl.accountEntries h.stored.accounts)
  work := h.has (by decide) (hl.workEntries h.stored.work)
  packets := h.has (by decide) (hl.packetEntries hq hc h.stored.packets)
  bonds := h.has (by decide) (hl.bondEntries h.stored.bonds)
  fees := h.has (by decide) (Ledger.feeEntries h.stored.fees)
  parameters := h.has (by decide) (hl.parameterEntries h.stored.parameters)
  marks := by
    apply h.has (by decide)
    intro k v hk
    exact ⟨h.stored.marks.only k v hk, h.stored.marks.empty_values k v hk⟩

/-- Whatever happens, the stores are well formed, and so any bytes are answered: the application
never stops, and a transaction is never rejected for an internal error, for its encoding or for
its route. -/
theorem Run.wellStored_and_answers {g : Genesis} {ts : List Transaction} (h : Run g ts a)
    (hc : Countable (g.sendsWith ts)) :
    a.WellStored ∧ ∀ text, ∃ checked delivered b,
      a.check text = .ok checked ∧ a.deliver text = .ok (delivered, b) ∧
      ∀ t, Transaction.decode .standard text = .ok t →
        (checked.code ≠ 1 ∧ checked.code ≠ 2 ∧ checked.code ≠ 6) ∧
        (delivered.code ≠ 1 ∧ delivered.code ≠ 2 ∧ delivered.code ≠ 6) := by
  obtain ⟨start, l, hs, hts, hh, hl⟩ := h.holds
  refine ⟨hh.wellStored hl (.of_run hc hs hts) hc, fun text => ?_⟩
  obtain ⟨r, w, hr, hcode⟩ := hh.run_answers hl .check text
  obtain ⟨r', b, n, hd, -, -⟩ := hh.deliver hl text
  obtain ⟨w', hr', hcode'⟩ : ∃ w, a.run .deliver text = .ok (r', w) ∧ _ := by
    obtain ⟨q, v, hq, hcode'⟩ := hh.run_answers hl .deliver text
    obtain ⟨w', hr'⟩ := run_of_deliver hd
    rw [hq] at hr'
    cases hr'
    exact ⟨v, hq, hcode'⟩
  refine ⟨r, r', b, ?_, hd, fun t ht => ⟨hcode t ht, hcode' t ht⟩⟩
  unfold App.check
  rw [hr]
  rfl

/-- After an accepted answer the stores are well formed, and the same answer is rejected for what
it says. -/
theorem Run.wellStored_and_answers_answer :
    ∃ a, Run Sample.genesis [Sample.answer] a ∧ Countable (Sample.genesis.sendsWith [Sample.answer]) ∧
      a.WellStored ∧ ∃ delivered b, a.deliver Sample.answerText = .ok (delivered, b) ∧
        delivered.code ≠ 1 ∧ delivered.code ≠ 2 ∧ delivered.code ≠ 6 := by
  obtain ⟨-, b, -, -, -, hb⟩ := Sample.run
  have hc : Countable (Sample.genesis.sendsWith [Sample.answer]) := countable_nil
  obtain ⟨hw, ha⟩ := Run.wellStored_and_answers hb hc
  obtain ⟨checked, delivered, c, -, hd, hcodes⟩ := ha Sample.answerText
  exact ⟨b, hb, hc, hw, delivered, c, hd, (hcodes Sample.answer Sample.decode_answerText).2⟩

end App
end Appchain
