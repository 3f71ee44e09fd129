import Appchain.Json.Shape
import Appchain.Json.Spelling
import Appchain.Proofs.Totals

/-!
# Sorted values

Reading any value from a document sorts the members of its objects by name. A
value whose members have been sorted is written as data if it was data before, is
sorted already, and has its members in another order at most.
-/

namespace Appchain

namespace OrderedMap

open Std

variable {K V : Type} [Ord K] [TransOrd K] [LawfulEqOrd K] [DecidableEq K]

theorem perm_foldl_insert {l : List (K × V)} (h : (l.map Prod.fst).Nodup) {m : OrderedMap K V}
    (hm : ∀ e ∈ l, m.get? e.1 = none) :
    (l.foldl (fun m e => m.insert e.1 e.2) m).entries.Perm (l ++ m.entries) := by
  induction l generalizing m with
  | nil => exact .refl _
  | cons e l ih =>
    obtain ⟨hfresh, hl⟩ := List.nodup_cons.mp h
    obtain ⟨he, hrest⟩ := List.forall_mem_cons.mp hm
    have hm' : ∀ x ∈ l, (m.insert e.1 e.2).get? x.1 = none := by
      intro x hx
      have hne : x.1 ≠ e.1 := fun heq => hfresh (heq ▸ List.mem_map_of_mem hx)
      rw [get?_insert, if_neg hne, hrest x hx]
    exact (ih hl hm').trans (((perm_insert he e.2).append_left l).trans List.perm_middle)

/-- Distinct keys keep their values, and only the order changes. -/
theorem perm_ofList {l : List (K × V)} (h : (l.map Prod.fst).Nodup) :
    (ofList l).entries.Perm l := by
  have hp := perm_foldl_insert h (m := ∅) fun _ _ => rfl
  exact hp.trans (.of_eq (List.append_nil l))

theorem mem_of_mem_foldl_insert {l : List (K × V)} {m : OrderedMap K V} {e : K × V}
    (h : e ∈ (l.foldl (fun m e => m.insert e.1 e.2) m).entries) : e ∈ l ∨ e ∈ m.entries := by
  induction l generalizing m with
  | nil => exact .inr h
  | cons x l ih =>
    rcases ih h with h | h
    · exact .inl (List.mem_cons_of_mem x h)
    · obtain ⟨k, v⟩ := e
      rw [mem_entries_iff, get?_insert] at h
      split at h
      · next hk =>
        cases h
        rw [hk]
        exact .inl (List.mem_cons_self ..)
      · exact .inr ((mem_entries_iff ..).mpr h)

theorem mem_of_mem_ofList {l : List (K × V)} {e : K × V} (h : e ∈ (ofList l).entries) : e ∈ l :=
  (mem_of_mem_foldl_insert h).resolve_right nofun

end OrderedMap

namespace Json

/-- Induction on a value, where a container has the hypothesis for all that it holds. -/
@[elab_as_elim]
theorem induction {P : Json → Prop} (null : P .null) (bool : ∀ b, P (.bool b))
    (word : ∀ n, P (.word n)) (literal : ∀ l, P (.literal l)) (text : ∀ s, P (.text s))
    (array : ∀ items : List Json, (∀ v ∈ items, P v) → P (.array items))
    (object : ∀ members : List (String × Json), (∀ e ∈ members, P e.2) → P (.object members)) :
    ∀ v, P v
  | .null => null
  | .bool b => bool b
  | .word n => word n
  | .literal l => literal l
  | .text s => text s
  | .array items => array items fun v hv =>
    have := List.sizeOf_lt_of_mem hv
    induction null bool word literal text array object v
  | .object members => object members fun e he =>
    have := List.sizeOf_lt_of_mem he
    induction null bool word literal text array object e.2
termination_by v => sizeOf v
decreasing_by
  · simp only [Json.array.sizeOf_spec]
    omega
  · obtain ⟨k, w⟩ := e
    simp only [Json.object.sizeOf_spec, Prod.mk.sizeOf_spec] at this ⊢
    omega

@[simp] theorem sortedItems_eq_map (vs : List Json) : sortedItems vs = vs.map sorted := by
  induction vs with
  | nil => rfl
  | cons v vs ih => simp [sortedItems, ih]

@[simp] theorem sortedMembers_eq_map (ms : List (String × Json)) :
    sortedMembers ms = ms.map fun m => (m.1, m.2.sorted) := by
  induction ms with
  | nil => rfl
  | cons m ms ih => simp [sortedMembers, ih]

theorem areData_iff {vs : List Json} : areData vs = true ↔ ∀ v ∈ vs, v.isData = true := by
  induction vs with
  | nil => simp [areData]
  | cons v vs ih => simp [areData, ih]

theorem areDataMembers_iff {ms : List (String × Json)} :
    areDataMembers ms = true ↔ ∀ e ∈ ms, e.2.isData = true := by
  induction ms with
  | nil => simp [areDataMembers]
  | cons m ms ih => simp [areDataMembers, ih]

/-- The members of a sorted object are among the sorted members. -/
theorem exists_of_mem_sorted {ms : List (String × Json)} {e : String × Json}
    (h : e ∈ (memberMap (ms.map fun m => (m.1, m.2.sorted))).entries) :
    ∃ m ∈ ms, (m.1, m.2.sorted) = e :=
  List.mem_map.mp (OrderedMap.mem_of_mem_ofList h)

/-- Members with distinct names are the same, up to order, after sorting. -/
theorem perm_memberMap {ms : List (String × Json)} (h : (ms.map Prod.fst).Nodup) :
    (memberMap (ms.map fun m => (m.1, m.2.sorted))).entries.Perm
      (ms.map fun m => (m.1, m.2.sorted)) := by
  apply OrderedMap.perm_ofList
  rw [List.map_map]
  exact h

theorem isData_sorted (v : Json) : v.isData = true → v.sorted.isData = true := by
  induction v using induction with
  | array items ih =>
    intro h
    have h := areData_iff.mp h
    simp only [sorted, sortedItems_eq_map, isData, areData_iff, List.forall_mem_map]
    exact fun v hv => ih v hv (h v hv)
  | object members ih =>
    intro h
    have h := areDataMembers_iff.mp h
    simp only [sorted, sortedMembers_eq_map, ofMembers, isData, areDataMembers_iff]
    intro e he
    obtain ⟨m, hm, rfl⟩ := exists_of_mem_sorted he
    exact ih m hm (h m hm)
  | _ => exact id

/-- Sorting a second time changes nothing. -/
theorem sorted_sorted (v : Json) : v.sorted.sorted = v.sorted := by
  induction v using induction with
  | array items ih =>
    simp only [sorted, sortedItems_eq_map, List.map_map, Json.array.injEq]
    exact List.map_congr_left ih
  | object members ih =>
    have hs : ∀ e ∈ (memberMap (members.map fun m => (m.1, m.2.sorted))).entries,
        (e.1, e.2.sorted) = e := by
      intro e he
      obtain ⟨m, hm, rfl⟩ := exists_of_mem_sorted he
      rw [ih m hm]
    simp only [sorted, sortedMembers_eq_map, ofMembers, Json.object.injEq]
    rw [(List.map_congr_left hs).trans (List.map_id _)]
    exact congrArg OrderedMap.entries (OrderedMap.ofList_entries _)
  | _ => rfl

mutual

/-- How many containers are inside one another. -/
def nesting : Json → Nat
  | .array items => nestingItems items + 1
  | .object members => nestingMembers members + 1
  | _ => 0

def nestingItems : List Json → Nat
  | [] => 0
  | v :: vs => max v.nesting (nestingItems vs)

def nestingMembers : List (String × Json) → Nat
  | [] => 0
  | (_, v) :: ms => max v.nesting (nestingMembers ms)

end

theorem nestingItems_le_iff {vs : List Json} {n : Nat} :
    nestingItems vs ≤ n ↔ ∀ v ∈ vs, v.nesting ≤ n := by
  induction vs with
  | nil => simp [nestingItems]
  | cons v vs ih => rw [nestingItems, Nat.max_le, ih, List.forall_mem_cons]

theorem nestingMembers_le_iff {ms : List (String × Json)} {n : Nat} :
    nestingMembers ms ≤ n ↔ ∀ e ∈ ms, e.2.nesting ≤ n := by
  induction ms with
  | nil => simp [nestingMembers]
  | cons m ms ih => rw [nestingMembers, Nat.max_le, ih, List.forall_mem_cons]

theorem nesting_sorted_le (v : Json) : v.sorted.nesting ≤ v.nesting := by
  induction v using induction with
  | array items ih =>
    have hitems := nestingItems_le_iff.mp (Nat.le_refl (nestingItems items))
    simp only [sorted, sortedItems_eq_map, nesting, Nat.add_le_add_iff_right, nestingItems_le_iff,
      List.forall_mem_map]
    exact fun v hv => Nat.le_trans (ih v hv) (hitems v hv)
  | object members ih =>
    have hmembers := nestingMembers_le_iff.mp (Nat.le_refl (nestingMembers members))
    simp only [sorted, sortedMembers_eq_map, ofMembers, nesting, Nat.add_le_add_iff_right,
      nestingMembers_le_iff]
    intro e he
    obtain ⟨m, hm, rfl⟩ := exists_of_mem_sorted he
    exact Nat.le_trans (ih m hm) (hmembers m hm)
  | _ => exact Nat.le_refl _

theorem itemsOfDocs_map {depth : Nat} {vs : List Json}
    (h : ∀ v ∈ vs, ofDoc depth v.toDoc = .ok v.sorted) :
    itemsOfDocs depth (vs.map toDoc) = .ok (vs.map sorted) := by
  induction vs with
  | nil => rfl
  | cons v vs ih =>
    obtain ⟨hv, hvs⟩ := List.forall_mem_cons.mp h
    simp only [List.map_cons, itemsOfDocs, hv, ih hvs]
    rfl

theorem membersOfDocs_map {depth : Nat} {ms : List (String × Json)}
    (h : ∀ e ∈ ms, ofDoc depth e.2.toDoc = .ok e.2.sorted) :
    membersOfDocs depth (ms.map fun m => (raw m.1, m.2.toDoc)) =
      .ok (ms.map fun m => (m.1, m.2.sorted)) := by
  induction ms with
  | nil => rfl
  | cons m ms ih =>
    obtain ⟨hm, hms⟩ := List.forall_mem_cons.mp h
    simp only [List.map_cons, membersOfDocs, ofRaw_raw, hm, ih hms]
    rfl

/-- Data that is not nested too deeply is read as a value with sorted members. -/
theorem ofDoc_toDoc (v : Json) : ∀ depth, v.isData = true → depth + v.nesting ≤ maximumDepth →
    ofDoc depth v.toDoc = .ok v.sorted := by
  induction v using induction with
  | null => exact fun _ _ _ => rfl
  | bool b => exact fun _ _ _ => rfl
  | word n => exact fun _ _ _ => by simp [toDoc, ofDoc, sorted]
  | literal l => exact fun _ h _ => by simp [isData] at h
  | text s => exact fun _ _ _ => by simp [toDoc, ofDoc, sorted]
  | array items ih =>
    intro depth h hn
    have h := areData_iff.mp h
    simp only [nesting] at hn
    have hnested := nestingItems_le_iff.mp (Nat.le_refl (nestingItems items))
    have hitems : itemsOfDocs (depth + 1) (items.map toDoc) = .ok (items.map sorted) := by
      refine itemsOfDocs_map fun v hv => ih v hv _ (h v hv) ?_
      have := hnested v hv
      omega
    simp only [toDoc, itemDocs_eq_map, ofDoc, hitems, sorted, sortedItems_eq_map]
    rw [if_pos ⟨by omega, trivial⟩]
    rfl
  | object members ih =>
    intro depth h hn
    have h := areDataMembers_iff.mp h
    simp only [nesting] at hn
    have hnested := nestingMembers_le_iff.mp (Nat.le_refl (nestingMembers members))
    have hmembers : membersOfDocs (depth + 1) (members.map fun m => (raw m.1, m.2.toDoc)) =
        .ok (members.map fun m => (m.1, m.2.sorted)) := by
      refine membersOfDocs_map fun e he => ih e he _ (h e he) ?_
      have := hnested e he
      omega
    simp only [toDoc, memberDocs_eq_map, ofDoc, hmembers, sorted, sortedMembers_eq_map]
    rw [if_pos ⟨by omega, trivial⟩]
    rfl

/-- Data that has been sorted is read as it is. -/
theorem ofDoc_sorted {v : Json} {depth : Nat} (h : v.isData = true)
    (hn : depth + v.nesting ≤ maximumDepth) : ofDoc depth v.sorted.toDoc = .ok v.sorted := by
  have hle := nesting_sorted_le v
  rw [ofDoc_toDoc v.sorted depth (isData_sorted v h) (by omega), sorted_sorted]

end Json
end Appchain
