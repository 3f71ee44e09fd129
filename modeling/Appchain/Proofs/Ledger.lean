import Appchain.Proofs.ContextContents
import Appchain.Proofs.Encodings
import Appchain.Proofs.Filing

/-!
# Ledgers

A ledger is what the stores of the application hold, as data: accounts instead
of encoded accounts, maps instead of keys below a root. `Stored` says that some
trees hold a ledger and nothing else. A store holds its part of the ledger by
itself, so changing one part leaves the other stores alone.
-/

namespace Appchain

structure Ledger where
  trend : Option String
  accounts : OrderedMap Address Account
  /-- The next account number. -/
  counter : Option UInt64
  difficulty : Option UInt64
  count : Option UInt64
  /-- The number of packets ever sent to a chain. -/
  lengths : OrderedMap Label UInt64
  packets : String → UInt64 → Option Packet
  /-- The sequence of the next packet from a chain. -/
  sequences : OrderedMap Label UInt64
  bonds : OrderedMap Address Bond
  fees : Option Coins
  memoLimit : Option UInt64
  signatureLimit : Option UInt64

namespace Ledger

def empty : Ledger where
  trend := none
  accounts := ∅
  counter := none
  difficulty := none
  count := none
  lengths := ∅
  packets _ _ := none
  sequences := ∅
  bonds := ∅
  fees := none
  memoLimit := none
  signatureLimit := none

end Ledger

namespace Channels

theorem queueKey_below (chain : String) (i : UInt64) :
    Bytes.ofString "egress/" <+: queueKey chain i := by
  unfold queueKey
  rw [Bytes.ofString_append, Bytes.ofString_append, List.append_assoc, List.append_assoc]
  exact List.prefix_append _ _

theorem queueKey_injective {c d : String} {i j : UInt64} (h : queueKey c i = queueKey d j) :
    c = d ∧ i = j := by
  unfold queueKey at h
  obtain ⟨hc, hi⟩ := List.append_inj' h (by simp)
  refine ⟨?_, Bytes.ofUInt64BE_injective hi⟩
  rw [Bytes.ofString_append, Bytes.ofString_append, Bytes.ofString_append,
    Bytes.ofString_append] at hc
  exact Bytes.ofString_injective (List.append_cancel_left (List.append_cancel_right hc))

theorem lengthKey_eq (chain : String) :
    lengthKey chain = Bytes.ofString lengthRoot ++ FileName.bytes (⟨chain⟩ : Label) :=
  Bytes.ofString_append lengthRoot chain

theorem sequenceKey_eq (chain : String) :
    sequenceKey chain = Bytes.ofString sequenceRoot ++ FileName.bytes (⟨chain⟩ : Label) :=
  Bytes.ofString_append sequenceRoot chain

/-- The roots of the packet store. -/
def roots : List Bytes :=
  [Bytes.ofString "egress/", Bytes.ofString lengthRoot, Bytes.ofString sequenceRoot]

/-- No key is below two roots. -/
theorem not_below_of_below {r q k : Bytes} (hr : r ∈ roots) (hq : q ∈ roots) (hne : r ≠ q)
    (h : r <+: k) : ¬ q <+: k := by
  have apart : ∀ r ∈ roots, ∀ q ∈ roots, r ≠ q → ¬ r <+: q := by decide
  intro h'
  rcases List.prefix_or_prefix_of_prefix h h' with hp | hp
  · exact apart r hr q hq hne hp
  · exact apart q hq r hr hne.symm hp

end Channels

namespace Accounts

def memoPath : Bytes := subspace.root ++ Bytes.ofString memoKey

def signaturesPath : Bytes := subspace.root ++ Bytes.ofString signaturesKey

end Accounts

namespace Tree

/-- The keys of the tree are among the given ones. -/
def Only (t : Tree) (p : Bytes → Prop) : Prop := ∀ k v, t.get? k = some v → p k

theorem Only.insert {t : Tree} {p : Bytes → Prop} (h : t.Only p) {k : Bytes} (hk : p k)
    (v : Bytes) : Only (t.insert k v) p := by
  intro j w hj
  rw [OrderedMap.get?_insert] at hj
  split at hj
  · next he => exact he ▸ hk
  · exact h j w hj

theorem only_empty (p : Bytes → Prop) : Only ∅ p := by
  intro k v h
  cases h

end Tree

open Layout

/-- A tree that holds the trend. -/
structure MainTree (t : Tree) (trend : Option String) : Prop where
  trend_eq : t.get? Trend.key = trend.map Bytes.ofString
  only : t.Only (· = Trend.key)

structure AccountTree (t : Tree) (accounts : OrderedMap Address Account) (counter : Option UInt64) :
    Prop where
  accounts_eq : t.Files Accounts.root Account.bytes accounts
  counter_eq : t.get? Accounts.counterKey = counter.map word.write
  only : t.Only fun k => k = Accounts.counterKey ∨ Accounts.root <+: k
  valid : ∀ a x, accounts.get? a = some x → x.coins.Valid

structure WorkTree (t : Tree) (difficulty count : Option UInt64) : Prop where
  difficulty_eq : t.get? (Bytes.ofString Mining.difficultyName) = difficulty.map word.write
  count_eq : t.get? (Bytes.ofString Mining.countName) = count.map word.write
  only : t.Only fun k =>
    k = Bytes.ofString Mining.difficultyName ∨ k = Bytes.ofString Mining.countName

structure PacketTree (t : Tree) (lengths sequences : OrderedMap Label UInt64)
    (packets : String → UInt64 → Option Packet) : Prop where
  lengths_eq : t.Files (Bytes.ofString Channels.lengthRoot) word.write lengths
  sequences_eq : t.Files (Bytes.ofString Channels.sequenceRoot) word.write sequences
  packets_eq : ∀ c i, t.get? (Channels.queueKey c i) = (packets c i).map Packet.wire.binary.write
  only : t.Only fun k => (∃ c i, k = Channels.queueKey c i) ∨
    Bytes.ofString Channels.lengthRoot <+: k ∨ Bytes.ofString Channels.sequenceRoot <+: k
  valid : ∀ c i p, packets c i = some p → p.coins.Valid

structure FeeTree (t : Tree) (fees : Option Coins) : Prop where
  fees_eq : t.get? Fees.key = fees.map Coins.wire.binary.write
  only : t.Only (· = Fees.key)
  valid : ∀ f, fees = some f → f.Valid

structure ParameterTree (t : Tree) (memoLimit signatureLimit : Option UInt64) : Prop where
  memo_eq : t.get? Accounts.memoPath = memoLimit.map Json.Shape.word.encode
  signatures_eq : t.get? Accounts.signaturesPath = signatureLimit.map Json.Shape.word.encode
  only : t.Only fun k => k = Accounts.memoPath ∨ k = Accounts.signaturesPath

/-- A tree that marks parameters as changed. -/
structure MarkTree (t : Tree) : Prop where
  empty_values : ∀ k v, t.get? k = some v → v = []
  only : t.Only fun k => k = Accounts.memoPath ∨ k = Accounts.signaturesPath

/-- The trees of the stores hold the ledger. -/
structure Ledger.Stored (l : Ledger) (t : StoreKey → Tree) : Prop where
  main : MainTree (t .main) l.trend
  accounts : AccountTree (t .accounts) l.accounts l.counter
  work : WorkTree (t .work) l.difficulty l.count
  packets : PacketTree (t .packets) l.lengths l.sequences l.packets
  bonds : (t .bonds).Files [] Bond.wire.binary.write l.bonds
  fees : FeeTree (t .fees) l.fees
  parameters : ParameterTree (t .parameters) l.memoLimit l.signatureLimit
  marks : MarkTree (t .changedParameters)

end Appchain
