import Appchain.Store.View
import Appchain.Address

/-!
# Maps filed in a store

A store keeps a map as one entry for each binding: the key is the name of the
bound thing below a root, and the value is encoded. `Files` says that a tree
holds a map in this way. Names are ordered as their bytes are, so a scan of the
root lists the bindings in the order of the map.
-/

namespace Appchain

open Std

/-- Names that stand for themselves as byte strings. -/
class FileName (K : Type) where
  bytes : K → Bytes
  bytes_injective : ∀ {a b : K}, bytes a = bytes b → a = b

namespace FileName

variable {K : Type} [FileName K]

instance : Ord K := ⟨fun a b => compare (bytes a) (bytes b)⟩

instance : TransOrd K where
  eq_swap {a b} := OrientedOrd.eq_swap (a := bytes a) (b := bytes b)
  isLE_trans {a b c} := TransOrd.isLE_trans (a := bytes a) (b := bytes b) (c := bytes c)

instance : LawfulEqOrd K where
  compare_self {a} := ReflOrd.compare_self (a := bytes a)
  eq_of_compare h := bytes_injective (LawfulEqCmp.eq_of_compare h)

end FileName

instance : FileName Address where
  bytes := Address.bytes
  bytes_injective {a b} h := by
    cases a
    cases b
    cases h
    rfl

/-- A text as the name of a file. -/
structure Label where
  text : String
  deriving DecidableEq

instance : FileName Label where
  bytes l := Bytes.ofString l.text
  bytes_injective {a b} h := by
    cases a
    cases b
    cases Bytes.ofString_injective h
    rfl

theorem compare_append (r a b : Bytes) : compare (r ++ a) (r ++ b) = compare a b := by
  induction r with
  | nil => rfl
  | cons x r ih =>
    rw [List.cons_append, List.cons_append, List.compare_cons_cons, ih]
    simp

namespace Tree

variable {K V : Type} [FileName K]

open FileName (bytes bytes_injective)

/-- The tree holds the map below the root, and nothing else there. -/
structure Files (t : Tree) (root : Bytes) (write : V → Bytes) (m : OrderedMap K V) : Prop where
  get?_eq : ∀ k, t.get? (root ++ bytes k) = (m.get? k).map write
  named : ∀ j v, t.get? (root ++ j) = some v → ∃ k : K, j = bytes k

namespace Files

variable {t : Tree} {root : Bytes} {write : V → Bytes} {m : OrderedMap K V}

theorem empty (root : Bytes) (write : V → Bytes) :
    Files ∅ root write (∅ : OrderedMap K V) where
  get?_eq _ := rfl
  named _ _ h := by cases h

theorem insert [DecidableEq K] (h : t.Files root write m) (k : K) (v : V) :
    Files (t.insert (root ++ bytes k) (write v)) root write (m.insert k v) where
  get?_eq j := by
    rw [OrderedMap.get?_insert, OrderedMap.get?_insert]
    by_cases hj : j = k
    · rw [if_pos (by rw [hj]), if_pos hj]
      rfl
    · have hne : root ++ bytes j ≠ root ++ bytes k := by
        intro he
        exact hj (bytes_injective (List.append_cancel_left he))
      rw [if_neg hne, if_neg hj, h.get?_eq]
  named j w hw := by
    rw [OrderedMap.get?_insert] at hw
    by_cases hj : root ++ j = root ++ bytes k
    · exact ⟨k, List.append_cancel_left hj⟩
    · rw [if_neg hj] at hw
      exact h.named j w hw

theorem erase [DecidableEq K] (h : t.Files root write m) (k : K) :
    Files (t.erase (root ++ bytes k)) root write (m.erase k) where
  get?_eq j := by
    rw [OrderedMap.get?_erase, OrderedMap.get?_erase]
    by_cases hj : j = k
    · rw [if_pos (by rw [hj]), if_pos hj]
      rfl
    · have hne : root ++ bytes j ≠ root ++ bytes k := by
        intro he
        exact hj (bytes_injective (List.append_cancel_left he))
      rw [if_neg hne, if_neg hj, h.get?_eq]
  named j w hw := by
    rw [OrderedMap.get?_erase] at hw
    split at hw
    · cases hw
    · exact h.named j w hw

/-- A key that is not below the root does not matter. -/
theorem insert_of_not_below (h : t.Files root write m) {k : Bytes} (hk : ¬ root <+: k)
    (v : Bytes) : Files (t.insert k v) root write m := by
  have same (j : Bytes) : (t.insert k v).get? (root ++ j) = t.get? (root ++ j) := by
    have hne : root ++ j ≠ k := by
      rintro rfl
      exact hk (List.prefix_append root j)
    rw [OrderedMap.get?_insert, if_neg hne]
  constructor
  · intro j
    rw [same, h.get?_eq]
  · intro j w hw
    rw [same] at hw
    exact h.named j w hw

end Files

/-- The entries of a map as it is filed. -/
def entriesBelow (root : Bytes) (write : V → Bytes) (m : OrderedMap K V) : List (Bytes × Bytes) :=
  m.entries.map fun e => (root ++ bytes e.1, write e.2)

theorem ascending_entriesBelow (root : Bytes) (write : V → Bytes) (m : OrderedMap K V) :
    (entriesBelow root write m).Pairwise fun a b => compare a.1 b.1 = .lt := by
  refine List.pairwise_map.mpr (m.ascending.imp fun {a b} hlt => ?_)
  rw [compare_append]
  exact hlt

/-- A scan of the root lists the map. -/
theorem Files.scan {t : Tree} {root : Bytes} {write : V → Bytes} {m : OrderedMap K V}
    (h : t.Files root write m) :
    (t.filterKeys fun k => root.isPrefixOf k).entries = entriesBelow root write m := by
  suffices t.filterKeys (fun k => root.isPrefixOf k)
      = ⟨entriesBelow root write m, ascending_entriesBelow root write m⟩ from
    congrArg OrderedMap.entries this
  refine OrderedMap.ext_get? fun k => Option.ext fun v => ?_
  rw [OrderedMap.get?_filterKeys, ← OrderedMap.mem_entries_iff (V := Bytes) ⟨_, _⟩]
  simp only [entriesBelow, List.mem_map, Prod.mk.injEq, Prod.exists]
  constructor
  · intro hk
    split at hk
    · next hp =>
      obtain ⟨j, rfl⟩ := List.isPrefixOf_iff_prefix.mp hp
      obtain ⟨n, rfl⟩ := h.named j v hk
      rw [h.get?_eq] at hk
      obtain ⟨w, hw, rfl⟩ := Option.map_eq_some_iff.mp hk
      exact ⟨n, w, (OrderedMap.mem_entries_iff m n w).mpr hw, rfl, rfl⟩
    · cases hk
  · rintro ⟨n, w, hm, rfl, rfl⟩
    rw [if_pos (List.isPrefixOf_iff_prefix.mpr (List.prefix_append root _)), h.get?_eq,
      (OrderedMap.mem_entries_iff m n w).mp hm]
    rfl

end Tree
end Appchain
