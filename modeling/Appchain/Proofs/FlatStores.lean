import Appchain.Proofs.Filing
import Appchain.Proofs.VersionedStores

/-!
# Layered stores as flat maps

A view reads through the committed tree, the writes of the block and its own writes.
Whatever is set and deleted through it, its look-ups and scans answer as the one map
does that these layers amount to. The part of a view below a root answers as the part
of that map below the root, with keys relative to it, and has nothing to do with other
keys.
-/

namespace Appchain

namespace Tree

/-- The entries below a root, each under the rest of its key. -/
def below (t : Tree) (root : Bytes) : Tree where
  entries := (t.filterKeys fun k => root.isPrefixOf k).entries.map
    fun e => (e.1.drop root.length, e.2)
  ascending := by
    refine List.pairwise_map.mpr (List.Pairwise.imp_of_mem (fun {a b} ha hb hlt => ?_)
      (t.filterKeys fun k => root.isPrefixOf k).ascending)
    obtain ⟨i, hi⟩ := List.isPrefixOf_iff_prefix.mp (List.mem_filter.mp ha).2
    obtain ⟨j, hj⟩ := List.isPrefixOf_iff_prefix.mp (List.mem_filter.mp hb).2
    rw [← hi, ← hj, compare_append] at hlt
    rw [← hi, ← hj, List.drop_left, List.drop_left]
    exact hlt

theorem get?_below (t : Tree) (root k : Bytes) : (t.below root).get? k = t.get? (root ++ k) := by
  refine Option.ext fun value => ?_
  rw [← OrderedMap.mem_entries_iff, ← OrderedMap.mem_entries_iff]
  constructor
  · intro h
    obtain ⟨e, he, heq⟩ := List.mem_map.mp h
    obtain ⟨hm, hp⟩ := List.mem_filter.mp he
    obtain ⟨j, hj⟩ := List.isPrefixOf_iff_prefix.mp hp
    obtain ⟨hk, rfl⟩ := Prod.mk.inj heq
    rw [← hj, List.drop_left] at hk
    rw [← hk, hj]
    exact hm
  · intro h
    refine List.mem_map.mpr ⟨(root ++ k, value), List.mem_filter.mpr ⟨h, ?_⟩, ?_⟩
    · exact List.isPrefixOf_iff_prefix.mpr (List.prefix_append root k)
    · rw [List.drop_left]

theorem below_insert (t : Tree) (root k value : Bytes) :
    below (t.insert (root ++ k) value) root = (t.below root).insert k value := by
  refine OrderedMap.ext_get? fun j => ?_
  simp only [get?_below, OrderedMap.get?_insert, List.append_cancel_left_eq]

theorem below_erase (t : Tree) (root k : Bytes) :
    below (t.erase (root ++ k)) root = (t.below root).erase k := by
  refine OrderedMap.ext_get? fun j => ?_
  simp only [get?_below, OrderedMap.get?_erase, List.append_cancel_left_eq]

/-- What a plain map answers, and the map afterwards. -/
def serve (t : Tree) (r : Request) : Answer × Tree := (r.answer t, r.apply t)

end Tree

/-- Look-ups and scans answer as a plain map does. -/
structure ReadsAs (get : Bytes → Option Bytes) (has : Bytes → Bool)
    (scan : Bytes → List (Bytes × Bytes)) (m : Tree) : Prop where
  get_eq : ∀ k, get k = m.get? k
  has_eq : ∀ k, has k = (m.get? k).isSome
  mem_scan : ∀ p k value, (k, value) ∈ scan p ↔ p <+: k ∧ m.get? k = some value
  increasing : ∀ p, Layers.Increasing (scan p)

theorem ReadsAs.of_scan {get : Bytes → Option Bytes} {has : Bytes → Bool}
    {scan : Bytes → List (Bytes × Bytes)} {m : Tree} (hg : ∀ k, get k = m.get? k)
    (hh : ∀ k, has k = (get k).isSome)
    (hs : ∀ p, scan p = (m.filterKeys fun k => p.isPrefixOf k).entries) :
    ReadsAs get has scan m where
  get_eq := hg
  has_eq k := by rw [hh, hg]
  mem_scan p k value := by
    rw [hs, OrderedMap.mem_entries_iff, OrderedMap.get?_filterKeys]
    by_cases h : p.isPrefixOf k = true
    · simp [h, List.isPrefixOf_iff_prefix.mp h]
    · simp [h, mt List.isPrefixOf_iff_prefix.mpr h]
  increasing p := by
    rw [hs]
    exact (m.filterKeys fun k => p.isPrefixOf k).ascending

namespace View

/-- What a view answers, and the view afterwards. -/
def serve (v : View) : Request → Answer × View
  | .get k => (.value (v.get k), v)
  | .set k value => (.done, v.set k value)
  | .delete k => (.done, v.delete k)
  | .scan p => (.entries (v.scan p), v)

theorem readsAs_contents (v : View) : ReadsAs v.get v.has v.scan v.contents :=
  .of_scan v.get_eq_contents (fun _ => rfl) v.scan_eq_contents

/-- The value of a key is the one in the topmost layer that says anything of it. -/
theorem get?_contents (v : View) (k : Bytes) :
    v.contents.get? k = (v.writes.get? k).getD ((v.pending.get? k).getD (v.tree.get? k)) := by
  simp only [contents, OrderedMap.get?_override]

theorem serve_eq {v : View} {t : Tree} (r : Request) (h : v.contents = t) :
    (v.serve r).1 = (t.serve r).1 ∧ (v.serve r).2.contents = (t.serve r).2 := by
  subst h
  cases r with
  | get k => exact ⟨congrArg Answer.value (v.get_eq_contents k), rfl⟩
  | set k value => exact ⟨rfl, v.contents_set k value⟩
  | delete k => exact ⟨rfl, v.contents_delete k⟩
  | scan p => exact ⟨congrArg Answer.entries (v.scan_eq_contents p), rfl⟩

/-- Requests go to the writes of the view alone. -/
theorem layers_serve (v : View) (r : Request) :
    (v.serve r).2.tree = v.tree ∧ (v.serve r).2.pending = v.pending := by
  cases r <;> exact ⟨rfl, rfl⟩

theorem layers_runAll (v : View) (rs : List Request) :
    (runAll serve v rs).2.tree = v.tree ∧ (runAll serve v rs).2.pending = v.pending := by
  induction rs generalizing v with
  | nil => exact ⟨rfl, rfl⟩
  | cons r rs ih =>
    obtain ⟨ht, hp⟩ := v.layers_serve r
    obtain ⟨hts, hps⟩ := ih (v.serve r).2
    exact ⟨hts.trans ht, hps.trans hp⟩

end View

namespace Partition

/-- What the part of a view holds, under keys relative to its root. -/
def contents (q : Partition) : Tree := q.view.contents.below q.root

def serve (q : Partition) : Request → Answer × Partition
  | .get k => (.value (q.get k), q)
  | .set k value => (.done, q.set k value)
  | .delete k => (.done, q.delete k)
  | .scan p => (.entries (q.scan p), q)

theorem get_eq_contents (q : Partition) (k : Bytes) : q.get k = q.contents.get? k := by
  rw [get, View.get_eq_contents, contents, Tree.get?_below]

theorem contents_set (q : Partition) (k value : Bytes) :
    (q.set k value).contents = q.contents.insert k value := by
  simp only [contents, set, View.contents_set, Tree.below_insert]

theorem contents_delete (q : Partition) (k : Bytes) :
    (q.delete k).contents = q.contents.erase k := by
  simp only [contents, delete, View.contents_delete, Tree.below_erase]

/-- Stripping the root off what is found below it and a prefix leaves what is below the prefix. -/
theorem scan_eq_contents (q : Partition) (p : Bytes) :
    q.scan p = (q.contents.filterKeys fun k => p.isPrefixOf k).entries := by
  have hbelow (k : Bytes) : (q.root ++ p).isPrefixOf k =
      (p.isPrefixOf (k.drop q.root.length) && q.root.isPrefixOf k) := by
    rw [Bool.eq_iff_iff, Bool.and_eq_true]
    simp only [List.isPrefixOf_iff_prefix]
    constructor
    · rintro ⟨r, rfl⟩
      simp [List.append_assoc]
    · rintro ⟨hp, r, rfl⟩
      rw [List.drop_left] at hp
      exact (List.prefix_append_right_inj _).mpr hp
  unfold scan contents Tree.below
  rw [View.scan_eq_contents]
  simp only [OrderedMap.filterKeys, OrderedMap.filter, List.filter_map, List.filter_filter, hbelow]
  rfl

theorem readsAs_contents (q : Partition) : ReadsAs q.get q.has q.scan q.contents := by
  refine .of_scan q.get_eq_contents (fun k => ?_) q.scan_eq_contents
  rfl

theorem serve_eq {q : Partition} {t : Tree} (r : Request) (h : q.contents = t) :
    (q.serve r).1 = (t.serve r).1 ∧ (q.serve r).2.contents = (t.serve r).2 := by
  subst h
  cases r with
  | get k => exact ⟨congrArg Answer.value (q.get_eq_contents k), rfl⟩
  | set k value => exact ⟨rfl, q.contents_set k value⟩
  | delete k => exact ⟨rfl, q.contents_delete k⟩
  | scan p => exact ⟨congrArg Answer.entries (q.scan_eq_contents p), rfl⟩

/-- Partitions with the same root whose views differ below the root at most. -/
structure SameOutside (q w : Partition) : Prop where
  root_eq : w.root = q.root
  tree_eq : w.view.tree = q.view.tree
  pending_eq : w.view.pending = q.view.pending
  writes_eq : ∀ j, ¬ q.root <+: j → w.view.writes.get? j = q.view.writes.get? j

theorem sameOutside_refl (q : Partition) : q.SameOutside q := ⟨rfl, rfl, rfl, fun _ _ => rfl⟩

theorem SameOutside.trans {q w u : Partition} (h : q.SameOutside w) (h' : w.SameOutside u) :
    q.SameOutside u where
  root_eq := h'.root_eq.trans h.root_eq
  tree_eq := h'.tree_eq.trans h.tree_eq
  pending_eq := h'.pending_eq.trans h.pending_eq
  writes_eq j hj := (h'.writes_eq j (h.root_eq ▸ hj)).trans (h.writes_eq j hj)

theorem SameOutside.get_eq {q w : Partition} (h : q.SameOutside w) {j : Bytes}
    (hj : ¬ q.root <+: j) : w.view.get j = q.view.get j := by
  unfold View.get
  rw [h.tree_eq, h.pending_eq, h.writes_eq j hj]

theorem sameOutside_serve (q : Partition) (r : Request) : q.SameOutside (q.serve r).2 := by
  have written (k : Bytes) (value : Option Bytes) (j : Bytes) (hj : ¬ q.root <+: j) :
      (q.view.writes.insert (q.root ++ k) value).get? j = q.view.writes.get? j := by
    rw [OrderedMap.get?_insert, if_neg]
    rintro rfl
    exact hj (List.prefix_append q.root k)
  cases r with
  | get k => exact q.sameOutside_refl
  | scan p => exact q.sameOutside_refl
  | set k value => exact ⟨rfl, rfl, rfl, written k (some value)⟩
  | delete k => exact ⟨rfl, rfl, rfl, written k none⟩

theorem sameOutside_runAll (q : Partition) (rs : List Request) :
    q.SameOutside (runAll serve q rs).2 := by
  induction rs generalizing q with
  | nil => exact q.sameOutside_refl
  | cons r rs ih => exact (q.sameOutside_serve r).trans (ih (q.serve r).2)

end Partition

/-- After any requests the layers answer as the flat map that they amount to, and a partition as
the part of it below its root. The partition leaves other keys alone, and what it answers is the
same over any view with the same values below the root. -/
theorem layers_flatten (v : View) (root : Bytes) (rs : List Request) :
    let w := runAll View.serve v rs
    let flat := runAll Tree.serve v.contents rs
    let q := runAll Partition.serve ⟨root, v⟩ rs
    let part := runAll Tree.serve (v.contents.below root) rs
    (w.1 = flat.1 ∧ ReadsAs w.2.get w.2.has w.2.scan flat.2 ∧
      ∀ k, flat.2.get? k =
        (w.2.writes.get? k).getD ((v.pending.get? k).getD (v.tree.get? k))) ∧
    (q.1 = part.1 ∧ ReadsAs q.2.get q.2.has q.2.scan part.2 ∧
      ∀ k, part.2.get? k = q.2.view.contents.get? (root ++ k)) ∧
    (∀ j, ¬ root <+: j → q.2.view.get j = v.get j ∧ q.2.view.writes.get? j = v.writes.get? j) ∧
    ∀ u : View, (∀ k, root <+: k → u.get k = v.get k) →
      (runAll Partition.serve ⟨root, u⟩ rs).1 = q.1 := by
  intro w flat q part
  have hview : w.1 = flat.1 ∧ w.2.contents = flat.2 :=
    runAll_simulates (R := fun (v : View) t => v.contents = t) View.serve_eq rfl rs
  have hpart (u : View) : (runAll Partition.serve ⟨root, u⟩ rs).1 =
        (runAll Tree.serve (u.contents.below root) rs).1 ∧
      (runAll Partition.serve ⟨root, u⟩ rs).2.contents =
        (runAll Tree.serve (u.contents.below root) rs).2 :=
    runAll_simulates (R := fun (q : Partition) t => q.contents = t) Partition.serve_eq rfl rs
  have hout := Partition.sameOutside_runAll ⟨root, v⟩ rs
  refine ⟨⟨hview.1, hview.2 ▸ w.2.readsAs_contents, fun k => ?_⟩,
    ⟨(hpart v).1, (hpart v).2 ▸ q.2.readsAs_contents, fun k => ?_⟩,
    fun j hj => ⟨hout.get_eq hj, hout.writes_eq j hj⟩, fun u hu => ?_⟩
  · obtain ⟨ht, hp⟩ := v.layers_runAll rs
    rw [← hview.2, View.get?_contents, ht, hp]
  · have hroot : q.2.root = root := hout.root_eq
    rw [← (hpart v).2, Partition.contents, Tree.get?_below, hroot]
  · have hsame : u.contents.below root = v.contents.below root := by
      refine OrderedMap.ext_get? fun k => ?_
      rw [Tree.get?_below, Tree.get?_below, ← View.get_eq_contents, ← View.get_eq_contents]
      exact hu _ (List.prefix_append root k)
    rw [(hpart u).1, hsame, (hpart v).1]

end Appchain
