import Appchain.Proofs.AppRuns
import Appchain.Proofs.HashedContents

/-!
# Hashes of the application

No store of the application holds the name of the next one as a key: keys are below
roots, have fixed names or are addresses. So after any two runs equal inputs of the
hash come from equal contents.
-/

namespace Appchain

open StoreKey MultiStore

theorem Tree.Only.contains_eq_false {t : Tree} {p : Bytes → Prop} (h : t.Only p) {k : Bytes}
    (hk : ¬ p k) : ¬ t.contains k = true := by
  intro hc
  obtain ⟨v, hv⟩ := OrderedMap.contains_iff.mp hc
  exact hk (h k v hv)

/-- Bonds are stored by their holders. -/
theorem length_of_contains_bond {t : Tree} {write : Bond → Bytes} {bonds : OrderedMap Address Bond}
    (h : t.Files [] write bonds) {k : Bytes} (hk : t.contains k = true) : k.length = 20 := by
  obtain ⟨v, hv⟩ := OrderedMap.contains_iff.mp hk
  obtain ⟨a, rfl⟩ := h.named k v hv
  exact a.length_bytes

theorem Ledger.Stored.not_ambiguous {l : Ledger} {f : StoreKey → Tree} (h : l.Stored f) :
    ¬ Ambiguous f (persistent application) := by
  have main : ¬ (f .main).contains (Bytes.ofString "acc") = true :=
    h.main.only.contains_eq_false (by decide)
  have accounts : ¬ (f .accounts).contains (Bytes.ofString "pow") = true :=
    h.accounts.only.contains_eq_false (by decide)
  have work : ¬ (f .work).contains (Bytes.ofString "ibc") = true :=
    h.work.only.contains_eq_false (by decide)
  have packets : ¬ (f .packets).contains (Bytes.ofString "stake") = true := by
    apply h.packets.only.contains_eq_false
    rintro (⟨c, i, he⟩ | hb | hb)
    · have hbelow := Channels.queueKey_below c i
      rw [← he] at hbelow
      revert hbelow
      decide
    · revert hb
      decide
    · revert hb
      decide
  have bonds : ¬ (f .bonds).contains (Bytes.ofString "fee") = true := by
    intro hc
    have hlen := length_of_contains_bond h.bonds hc
    revert hlen
    decide
  have fees : ¬ (f .fees).contains (Bytes.ofString "params") = true :=
    h.fees.only.contains_eq_false (by decide)
  rintro (h | h | h | h | h | h | h)
  · exact main h
  · exact accounts h
  · exact work h
  · exact packets h
  · exact bonds h
  · exact fees h
  · exact h

namespace App

/-- After any two runs whose hashes are taken of the same bytes the persistent stores are the
same. -/
theorem Run.contents_eq_of_hashInput {g g' : Genesis} {ts us : List Transaction} {a b : App}
    {input : Bytes} (ha : Run g ts a) (hb : Run g' us b) (hia : a.store.hashInput = .ok input)
    (hib : b.store.hashInput = .ok input)
    (hma : Measurable (hashedStrings (persistent application) a.store.contents))
    (hmb : Measurable (hashedStrings (persistent application) b.store.contents)) :
    ∀ key ∈ application, key.kind = .persistent → a.store.contents key = b.store.contents key := by
  obtain ⟨-, l, -, -, hl, -⟩ := ha.holds
  obtain ⟨-, n, -, -, hn, -⟩ := hb.holds
  have hm : a.store.mounted = b.store.mounted := hl.assembled.mounted.trans hn.assembled.mounted.symm
  have hstrings := hashedStrings_eq hm hia hib (hl.assembled.mounted.symm ▸ hma)
    (hn.assembled.mounted.symm ▸ hmb)
  rw [hl.assembled.mounted] at hstrings
  intro key hk hp
  exact eq_of_hashedStrings hl.stored.not_ambiguous hn.stored.not_ambiguous hstrings key
    (mem_persistent.mpr ⟨hk, hp⟩)

end App
end Appchain
