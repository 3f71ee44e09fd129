import Appchain.Proofs.Ledger
import Appchain.Proofs.VersionedStores

/-!
# What a ledger says about the stores

A ledger fixes every entry of the persistent stores: their trees are the same
wherever the ledger is held, and so is what is hashed of them. Only the marks of
changed parameters are left open, and they are in a transient store.
-/

namespace Appchain

open StoreKey MultiStore

namespace Tree

variable {t u : Tree}

theorem Only.get?_eq_none {p : Bytes → Prop} (h : t.Only p) {k : Bytes} (hk : ¬ p k) :
    t.get? k = none := by
  cases ht : t.get? k with
  | none => rfl
  | some v => exact absurd (h k v ht) hk

/-- Trees with keys of one form are equal if they have the same entries of this form. -/
theorem Only.ext {p : Bytes → Prop} (ht : t.Only p) (hu : u.Only p)
    (h : ∀ k, p k → t.get? k = u.get? k) : t = u := by
  apply OrderedMap.ext_get?
  intro k
  by_cases hk : p k
  · exact h k hk
  · rw [ht.get?_eq_none hk, hu.get?_eq_none hk]

/-- A map is filed in one way only. -/
theorem Files.get?_eq_get? {K V : Type} [FileName K] {root : Bytes} {write : V → Bytes}
    {m : OrderedMap K V} (ht : t.Files root write m) (hu : u.Files root write m) {k : Bytes}
    (hk : root <+: k) : t.get? k = u.get? k := by
  obtain ⟨j, rfl⟩ := hk
  by_cases hj : ∃ n : K, j = FileName.bytes n
  · obtain ⟨n, rfl⟩ := hj
    rw [ht.get?_eq, hu.get?_eq]
  · have unnamed {x : Tree} (hx : x.Files root write m) : x.get? (root ++ j) = none := by
      cases hv : x.get? (root ++ j) with
      | none => rfl
      | some v => exact absurd (hx.named j v hv) hj
    rw [unnamed ht, unnamed hu]

end Tree

section Trees

variable {t u : Tree}

theorem MainTree.tree_eq {trend : Option String} (ht : MainTree t trend) (hu : MainTree u trend) :
    t = u := by
  apply ht.only.ext hu.only
  rintro k rfl
  rw [ht.trend_eq, hu.trend_eq]

theorem AccountTree.tree_eq {accounts : OrderedMap Address Account} {counter : Option UInt64}
    (ht : AccountTree t accounts counter) (hu : AccountTree u accounts counter) : t = u := by
  apply ht.only.ext hu.only
  rintro k (rfl | hk)
  · rw [ht.counter_eq, hu.counter_eq]
  · exact ht.accounts_eq.get?_eq_get? hu.accounts_eq hk

theorem WorkTree.tree_eq {difficulty count : Option UInt64} (ht : WorkTree t difficulty count)
    (hu : WorkTree u difficulty count) : t = u := by
  apply ht.only.ext hu.only
  rintro k (rfl | rfl)
  · rw [ht.difficulty_eq, hu.difficulty_eq]
  · rw [ht.count_eq, hu.count_eq]

theorem PacketTree.tree_eq {lengths sequences : OrderedMap Label UInt64}
    {packets : String → UInt64 → Option Packet} (ht : PacketTree t lengths sequences packets)
    (hu : PacketTree u lengths sequences packets) : t = u := by
  apply ht.only.ext hu.only
  rintro k (⟨c, i, rfl⟩ | hk | hk)
  · rw [ht.packets_eq, hu.packets_eq]
  · exact ht.lengths_eq.get?_eq_get? hu.lengths_eq hk
  · exact ht.sequences_eq.get?_eq_get? hu.sequences_eq hk

theorem FeeTree.tree_eq {fees : Option Coins} (ht : FeeTree t fees) (hu : FeeTree u fees) :
    t = u := by
  apply ht.only.ext hu.only
  rintro k rfl
  rw [ht.fees_eq, hu.fees_eq]

theorem ParameterTree.tree_eq {memo signatures : Option UInt64} (ht : ParameterTree t memo signatures)
    (hu : ParameterTree u memo signatures) : t = u := by
  apply ht.only.ext hu.only
  rintro k (rfl | rfl)
  · rw [ht.memo_eq, hu.memo_eq]
  · rw [ht.signatures_eq, hu.signatures_eq]

end Trees

namespace Ledger

variable {l : Ledger} {t u : StoreKey → Tree}

/-- A ledger fixes the trees of the persistent stores. -/
theorem Stored.tree_eq (ht : l.Stored t) (hu : l.Stored u) {key : StoreKey} (hk : key ∈ application)
    (hp : key.kind = .persistent) : t key = u key := by
  unfold application at hk
  simp only [List.mem_cons, List.not_mem_nil, or_false] at hk
  rcases hk with rfl | rfl | rfl | rfl | rfl | rfl | rfl | rfl
  · exact ht.main.tree_eq hu.main
  · exact ht.accounts.tree_eq hu.accounts
  · exact ht.work.tree_eq hu.work
  · exact ht.packets.tree_eq hu.packets
  · exact OrderedMap.ext_get? fun k => ht.bonds.get?_eq_get? hu.bonds k.nil_prefix
  · exact ht.fees.tree_eq hu.fees
  · exact ht.parameters.tree_eq hu.parameters
  · cases hp

/-- What is hashed depends on the ledger alone. -/
theorem Stored.contentsInput_eq (ht : l.Stored t) (hu : l.Stored u) :
    contentsInput application t = contentsInput application u :=
  contentsInput_congr fun _ hk hp => ht.tree_eq hu hk hp

end Ledger
end Appchain
