import Appchain.Store.Layers

/-!
# Views of a store

A store is read through three layers: the committed tree, the writes of the
block, and the writes of the view itself. A write shadows what is below it, and
a deletion is a write as well. `contents` is the map that the layers amount to;
lookups and scans answer as it does without computing it.
-/

namespace Appchain

abbrev Tree := OrderedMap Bytes Bytes

/-- A key without a value is deleted. -/
abbrev WriteSet := OrderedMap Bytes (Option Bytes)

structure View where
  tree : Tree
  pending : WriteSet
  writes : WriteSet

namespace View

def contents (v : View) : Tree := (v.tree.override v.pending).override v.writes

def get (v : View) (k : Bytes) : Option Bytes :=
  match v.writes.get? k with
  | some value => value
  | none =>
    match v.pending.get? k with
    | some value => value
    | none => v.tree.get? k

def has (v : View) (k : Bytes) : Bool := (v.get k).isSome

def set (v : View) (k value : Bytes) : View := { v with writes := v.writes.insert k (some value) }

def delete (v : View) (k : Bytes) : View := { v with writes := v.writes.insert k none }

/-- The entries whose key starts with `p`, in ascending order. -/
def scan (v : View) (p : Bytes) : List (Bytes × Bytes) :=
  let block := Layers.merge (Layers.range p v.tree.entries) (Layers.range p v.pending.entries)
  Layers.merge block (Layers.range p v.writes.entries)

theorem get_eq_contents (v : View) (k : Bytes) : v.get k = v.contents.get? k := by
  simp only [get, contents, OrderedMap.get?_override]
  cases v.writes.get? k with
  | some _ => rfl
  | none => cases v.pending.get? k <;> rfl

theorem scan_eq_contents (v : View) (p : Bytes) :
    v.scan p = (v.contents.filterKeys fun k => p.isPrefixOf k).entries := by
  unfold scan
  rw [Layers.range_entries, Layers.range_entries, Layers.range_entries, Layers.merge_entries,
    Layers.merge_entries]
  refine congrArg OrderedMap.entries (OrderedMap.ext_get? fun k => ?_)
  simp only [contents, OrderedMap.get?_override, OrderedMap.get?_filterKeys]
  split <;> simp

theorem scan_nil (v : View) : v.scan [] = v.contents.entries := by
  rw [scan_eq_contents]
  exact List.filter_eq_self.mpr fun e _ => rfl

theorem contents_set (v : View) (k value : Bytes) :
    (v.set k value).contents = v.contents.insert k value := by
  refine OrderedMap.ext_get? fun j => ?_
  simp only [contents, set, OrderedMap.get?_override, OrderedMap.get?_insert]
  split <;> simp

theorem contents_delete (v : View) (k : Bytes) : (v.delete k).contents = v.contents.erase k := by
  refine OrderedMap.ext_get? fun j => ?_
  simp only [contents, delete, OrderedMap.get?_override, OrderedMap.get?_insert,
    OrderedMap.get?_erase]
  split <;> simp

theorem get_set (v : View) (k j value : Bytes) :
    (v.set k value).get j = if j = k then some value else v.get j := by
  simp only [get_eq_contents, contents_set, OrderedMap.get?_insert]

theorem get_delete (v : View) (k j : Bytes) :
    (v.delete k).get j = if j = k then none else v.get j := by
  simp only [get_eq_contents, contents_delete, OrderedMap.get?_erase]

theorem mem_scan_iff (v : View) (p k value : Bytes) :
    (k, value) ∈ v.scan p ↔ p <+: k ∧ v.get k = some value := by
  rw [scan_eq_contents, OrderedMap.mem_entries_iff, OrderedMap.get?_filterKeys, get_eq_contents]
  by_cases h : p.isPrefixOf k = true
  · simp [h, List.isPrefixOf_iff_prefix.mp h]
  · simp [h, mt List.isPrefixOf_iff_prefix.mpr h]

end View

/-- The part of a view below a root. Keys are relative to the root. -/
structure Partition where
  root : Bytes
  view : View

namespace Partition

def get (q : Partition) (k : Bytes) : Option Bytes := q.view.get (q.root ++ k)

def has (q : Partition) (k : Bytes) : Bool := q.view.has (q.root ++ k)

def set (q : Partition) (k value : Bytes) : Partition :=
  { q with view := q.view.set (q.root ++ k) value }

def delete (q : Partition) (k : Bytes) : Partition :=
  { q with view := q.view.delete (q.root ++ k) }

def scan (q : Partition) (p : Bytes) : List (Bytes × Bytes) :=
  (q.view.scan (q.root ++ p)).map fun e => (e.1.drop q.root.length, e.2)

theorem get_set (q : Partition) (k j value : Bytes) :
    (q.set k value).get j = if j = k then some value else q.get j := by
  simp [get, set, View.get_set]

theorem get_delete (q : Partition) (k j : Bytes) :
    (q.delete k).get j = if j = k then none else q.get j := by
  simp [get, delete, View.get_delete]

/-- Keys that do not start with the root keep their value. -/
theorem view_get_set (q : Partition) (k j value : Bytes) (h : ¬ q.root <+: j) :
    (q.set k value).view.get j = q.view.get j := by
  have : j ≠ q.root ++ k := by
    rintro rfl
    exact h (List.prefix_append _ _)
  simp [set, View.get_set, this]

theorem mem_scan_iff (q : Partition) (p k value : Bytes) :
    (k, value) ∈ q.scan p ↔ p <+: k ∧ q.get k = some value := by
  simp only [scan, get, List.mem_map, Prod.exists, Prod.mk.injEq, View.mem_scan_iff]
  constructor
  · rintro ⟨j, x, ⟨⟨r, rfl⟩, hx⟩, rfl, rfl⟩
    simpa [List.append_assoc] using hx
  · rintro ⟨hp, hg⟩
    exact ⟨q.root ++ k, value, ⟨List.prefix_append_right_inj _ |>.mpr hp, hg⟩, by simp, rfl⟩

end Partition
end Appchain
