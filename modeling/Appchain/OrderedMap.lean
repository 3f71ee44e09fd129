/-!
# Finite maps in key order

A map is its list of entries, strictly ascending by key, so equal maps have
equal entries and iteration order is part of the value. `get?` is the view:
every operation is described by what it does to lookups, and two maps with the
same lookups are equal (`ext_get?`).
-/

namespace Appchain

open Std

/-- Entries strictly ascending by key. -/
structure OrderedMap (K : Type) (V : Type) [Ord K] where
  entries : List (K × V)
  ascending : entries.Pairwise fun a b => compare a.1 b.1 = .lt

namespace OrderedMap

variable {K V : Type} [Ord K]

instance [DecidableEq K] [DecidableEq V] : DecidableEq (OrderedMap K V) := fun m n =>
  decidable_of_iff (m.entries = n.entries) (by cases m; cases n; simp)

def empty : OrderedMap K V := ⟨[], .nil⟩

instance : EmptyCollection (OrderedMap K V) := ⟨empty⟩

instance : Inhabited (OrderedMap K V) := ⟨empty⟩

/-- Stops at the first key that is not below `k`. -/
def lookup (k : K) : List (K × V) → Option V
  | [] => none
  | (a, v) :: l =>
    match compare k a with
    | .lt => none
    | .eq => some v
    | .gt => lookup k l

def put (k : K) (v : V) : List (K × V) → List (K × V)
  | [] => [(k, v)]
  | (a, w) :: l =>
    match compare k a with
    | .lt => (k, v) :: (a, w) :: l
    | .eq => (k, v) :: l
    | .gt => (a, w) :: put k v l

def remove (k : K) : List (K × V) → List (K × V)
  | [] => []
  | (a, w) :: l =>
    match compare k a with
    | .lt => (a, w) :: l
    | .eq => l
    | .gt => (a, w) :: remove k l

theorem fst_of_mem_put {k : K} {v : V} {e : K × V} {l : List (K × V)} (h : e ∈ put k v l) :
    e.1 = k ∨ e ∈ l := by
  induction l with
  | nil => simp_all [put]
  | cons x l ih =>
    simp only [put] at h
    split at h <;> grind

theorem mem_of_mem_remove {k : K} {e : K × V} {l : List (K × V)} (h : e ∈ remove k l) :
    e ∈ l := by
  induction l with
  | nil => simp_all [remove]
  | cons x l ih =>
    simp only [remove] at h
    split at h <;> grind

theorem ascending_remove (k : K) {l : List (K × V)}
    (h : l.Pairwise fun a b => compare a.1 b.1 = .lt) :
    (remove k l).Pairwise fun a b => compare a.1 b.1 = .lt := by
  induction l with
  | nil => simp [remove]
  | cons x l ih =>
    obtain ⟨hx, hl⟩ := List.pairwise_cons.mp h
    simp only [remove]
    split
    · exact h
    · exact hl
    · exact List.pairwise_cons.mpr ⟨fun e he => hx e (mem_of_mem_remove he), ih hl⟩

theorem lookup_eq_none_of_lt {k : K} {l : List (K × V)}
    (h : ∀ e ∈ l, compare k e.1 = .lt) : lookup k l = none := by
  cases l with
  | nil => rfl
  | cons x l => simp [lookup, h x (by simp)]

def get? (m : OrderedMap K V) (k : K) : Option V := lookup k m.entries

def contains (m : OrderedMap K V) (k : K) : Bool := (m.get? k).isSome

def keys (m : OrderedMap K V) : List K := m.entries.map Prod.fst

def isEmpty (m : OrderedMap K V) : Bool := m.entries.isEmpty

def filter (m : OrderedMap K V) (p : K × V → Bool) : OrderedMap K V :=
  ⟨m.entries.filter p, m.ascending.filter _⟩

/-- The entries whose key satisfies `p`. -/
def filterKeys (m : OrderedMap K V) (p : K → Bool) : OrderedMap K V := m.filter fun e => p e.1

@[simp] theorem get?_empty (k : K) : (empty : OrderedMap K V).get? k = none := rfl

@[simp] theorem get?_emptyCollection (k : K) : (∅ : OrderedMap K V).get? k = none := rfl

variable [TransOrd K] [LawfulEqOrd K]

theorem ascending_put (k : K) (v : V) {l : List (K × V)}
    (h : l.Pairwise fun a b => compare a.1 b.1 = .lt) :
    (put k v l).Pairwise fun a b => compare a.1 b.1 = .lt := by
  induction l with
  | nil => simp [put]
  | cons x l ih =>
    obtain ⟨hx, hl⟩ := List.pairwise_cons.mp h
    simp only [put]
    split
    · next hlt =>
      refine List.pairwise_cons.mpr ⟨fun e he => ?_, h⟩
      rcases List.mem_cons.mp he with rfl | he
      · exact hlt
      · exact TransCmp.lt_trans hlt (hx e he)
    · next heq =>
      cases LawfulEqCmp.eq_of_compare heq
      exact List.pairwise_cons.mpr ⟨hx, hl⟩
    · next hgt =>
      refine List.pairwise_cons.mpr ⟨fun e he => ?_, ih hl⟩
      rcases fst_of_mem_put he with h' | he
      · rw [h']
        exact OrientedCmp.lt_of_gt hgt
      · exact hx e he

theorem lookup_put (k j : K) (v : V) {l : List (K × V)}
    (h : l.Pairwise fun a b => compare a.1 b.1 = .lt) :
    lookup j (put k v l) = if compare j k = .eq then some v else lookup j l := by
  induction l with
  | nil =>
    simp only [put, lookup]
    split <;> simp_all
  | cons x l ih =>
    obtain ⟨hx, hl⟩ := List.pairwise_cons.mp h
    simp only [put]
    split
    · next hlt =>
      simp only [lookup]
      split
      · next hj => simp [hj, TransCmp.lt_trans hj hlt]
      · next hj => simp [hj]
      · next hj => simp [hj]
    · next heq =>
      cases LawfulEqCmp.eq_of_compare heq
      simp only [lookup]
      split <;> simp_all
    · next hgt =>
      simp only [lookup, ih hl]
      by_cases hjk : compare j k = .eq
      · cases LawfulEqCmp.eq_of_compare hjk
        simp [hgt]
      · simp [hjk]

theorem lookup_remove (k j : K) {l : List (K × V)}
    (h : l.Pairwise fun a b => compare a.1 b.1 = .lt) :
    lookup j (remove k l) = if compare j k = .eq then none else lookup j l := by
  induction l with
  | nil => simp [remove, lookup]
  | cons x l ih =>
    obtain ⟨hx, hl⟩ := List.pairwise_cons.mp h
    simp only [remove]
    split
    · next hlt =>
      by_cases hjk : compare j k = .eq
      · cases LawfulEqCmp.eq_of_compare hjk
        simp [lookup, hlt]
      · simp [hjk]
    · next heq =>
      cases LawfulEqCmp.eq_of_compare heq
      by_cases hjk : compare j x.1 = .eq
      · cases LawfulEqCmp.eq_of_compare hjk
        simp [lookup_eq_none_of_lt hx]
      · simp only [hjk, ↓reduceIte, lookup]
        split
        · next hj =>
          exact lookup_eq_none_of_lt fun e he => TransCmp.lt_trans hj (hx e he)
        · next hj => exact absurd hj hjk
        · rfl
    · next hgt =>
      simp only [lookup, ih hl]
      by_cases hjk : compare j k = .eq
      · cases LawfulEqCmp.eq_of_compare hjk
        simp [hgt]
      · simp [hjk]

def insert (m : OrderedMap K V) (k : K) (v : V) : OrderedMap K V :=
  ⟨put k v m.entries, ascending_put k v m.ascending⟩

def erase (m : OrderedMap K V) (k : K) : OrderedMap K V :=
  ⟨remove k m.entries, ascending_remove k m.ascending⟩

/-- Binds `k`, or unbinds it when there is no value. -/
def set (m : OrderedMap K V) (k : K) (v : Option V) : OrderedMap K V :=
  match v with
  | some v => m.insert k v
  | none => m.erase k

/-- Binds the keys one after another, so that the last value of a key holds. -/
def ofList (l : List (K × V)) : OrderedMap K V := l.foldl (fun m e => m.insert e.1 e.2) ∅

/-- Binds every key of `w` as `w` says; the other keys keep their value. -/
def union (m w : OrderedMap K V) : OrderedMap K V :=
  w.entries.foldl (fun m e => m.insert e.1 e.2) m

/-- `m` after the writes `w`, where a key without a value is unbound. -/
def override (m : OrderedMap K V) (w : OrderedMap K (Option V)) : OrderedMap K V :=
  w.entries.foldl (fun m e => m.set e.1 e.2) m

theorem get?_insert [DecidableEq K] (m : OrderedMap K V) (k j : K) (v : V) :
    (m.insert k v).get? j = if j = k then some v else m.get? j := by
  simp [get?, insert, lookup_put k j v m.ascending]

theorem get?_erase [DecidableEq K] (m : OrderedMap K V) (k j : K) :
    (m.erase k).get? j = if j = k then none else m.get? j := by
  simp [get?, erase, lookup_remove k j m.ascending]

theorem get?_set [DecidableEq K] (m : OrderedMap K V) (k j : K) (v : Option V) :
    (m.set k v).get? j = if j = k then v else m.get? j := by
  cases v with
  | none => exact get?_erase m k j
  | some v => exact get?_insert m k j v

theorem mem_entries_iff (m : OrderedMap K V) (k : K) (v : V) :
    (k, v) ∈ m.entries ↔ m.get? k = some v := by
  obtain ⟨l, h⟩ := m
  simp only [get?]
  induction l with
  | nil => simp [lookup]
  | cons x l ih =>
    obtain ⟨hx, hl⟩ := List.pairwise_cons.mp h
    simp only [lookup, List.mem_cons, ih hl]
    split
    · next hlt =>
      have : lookup k l = none := lookup_eq_none_of_lt fun e he => TransCmp.lt_trans hlt (hx e he)
      have : (k, v) ≠ x := by
        rintro rfl
        simp at hlt
      simp_all
    · next heq =>
      cases LawfulEqCmp.eq_of_compare heq
      obtain ⟨a, w⟩ := x
      simp [lookup_eq_none_of_lt hx, eq_comm]
    · next hgt =>
      have : (k, v) ≠ x := by
        rintro rfl
        simp at hgt
      simp_all

theorem ext_get? {m n : OrderedMap K V} (h : ∀ k, m.get? k = n.get? k) : m = n := by
  obtain ⟨l, hl⟩ := m
  obtain ⟨r, hr⟩ := n
  suffices l = r by subst this; rfl
  simp only [get?] at h
  induction l generalizing r with
  | nil =>
    cases r with
    | nil => rfl
    | cons y r => simpa [lookup] using h y.1
  | cons x l ih =>
    obtain ⟨hx, hl'⟩ := List.pairwise_cons.mp hl
    cases r with
    | nil => simpa [lookup] using h x.1
    | cons y r =>
      obtain ⟨hy, hr'⟩ := List.pairwise_cons.mp hr
      have hxy : compare x.1 y.1 = .eq := by
        cases hc : compare x.1 y.1 with
        | eq => rfl
        | lt => simpa [lookup, hc] using h x.1
        | gt => simpa [lookup, OrientedCmp.lt_of_gt hc] using h y.1
      obtain ⟨a, v⟩ := x
      obtain ⟨b, w⟩ := y
      cases LawfulEqCmp.eq_of_compare hxy
      have hv : v = w := by simpa [lookup] using h a
      subst hv
      congr 1
      refine ih hl' r hr' fun k => ?_
      cases hc : compare k a with
      | gt => simpa [lookup, hc] using h k
      | eq =>
        cases LawfulEqCmp.eq_of_compare hc
        rw [lookup_eq_none_of_lt hx, lookup_eq_none_of_lt hy]
      | lt =>
        rw [lookup_eq_none_of_lt fun e he => TransCmp.lt_trans hc (hx e he),
          lookup_eq_none_of_lt fun e he => TransCmp.lt_trans hc (hy e he)]

/-- Maps that have the same entries, in whatever order, are equal. -/
theorem ext_mem {m n : OrderedMap K V} (h : ∀ k v, (k, v) ∈ m.entries ↔ (k, v) ∈ n.entries) :
    m = n := by
  refine ext_get? fun k => Option.ext fun v => ?_
  rw [← mem_entries_iff, ← mem_entries_iff]
  exact h k v

theorem get?_filter (m : OrderedMap K V) (p : K × V → Bool) (k : K) :
    (m.filter p).get? k = (m.get? k).filter fun v => p (k, v) := by
  ext v
  rw [← mem_entries_iff]
  simp [filter, mem_entries_iff, Option.filter_eq_some_iff]

theorem get?_filterKeys (m : OrderedMap K V) (p : K → Bool) (k : K) :
    (m.filterKeys p).get? k = if p k then m.get? k else none := by
  rw [filterKeys, get?_filter]
  cases m.get? k <;> by_cases h : p k <;> simp [h]

theorem get?_union [DecidableEq K] (m w : OrderedMap K V) (k : K) :
    (m.union w).get? k = (w.get? k).or (m.get? k) := by
  obtain ⟨l, h⟩ := w
  simp only [union, get?]
  induction l generalizing m with
  | nil => rfl
  | cons x l ih =>
    obtain ⟨hx, hl⟩ := List.pairwise_cons.mp h
    rw [List.foldl_cons, ih _ hl]
    have := get?_insert m x.1 k x.2
    simp only [get?] at this
    simp only [this, lookup]
    cases hc : compare k x.1 with
    | eq =>
      cases LawfulEqCmp.eq_of_compare hc
      simp [lookup_eq_none_of_lt hx]
    | lt =>
      have hne : k ≠ x.1 := by rintro rfl; simp at hc
      simp [hne, lookup_eq_none_of_lt fun e he => TransCmp.lt_trans hc (hx e he)]
    | gt =>
      have hne : k ≠ x.1 := by rintro rfl; simp at hc
      simp [hne]

theorem get?_override [DecidableEq K] (m : OrderedMap K V) (w : OrderedMap K (Option V)) (k : K) :
    (m.override w).get? k = (w.get? k).getD (m.get? k) := by
  obtain ⟨l, h⟩ := w
  simp only [override, get?]
  induction l generalizing m with
  | nil => rfl
  | cons x l ih =>
    obtain ⟨hx, hl⟩ := List.pairwise_cons.mp h
    rw [List.foldl_cons, ih _ hl]
    have := get?_set m x.1 k x.2
    simp only [get?] at this
    simp only [this, lookup]
    cases hc : compare k x.1 with
    | eq =>
      cases LawfulEqCmp.eq_of_compare hc
      simp [lookup_eq_none_of_lt hx]
    | lt =>
      have hne : k ≠ x.1 := by rintro rfl; simp at hc
      simp [hne, lookup_eq_none_of_lt fun e he => TransCmp.lt_trans hc (hx e he)]
    | gt =>
      have hne : k ≠ x.1 := by rintro rfl; simp at hc
      simp [hne]

theorem ofList_entries [DecidableEq K] (m : OrderedMap K V) : ofList m.entries = m := by
  refine ext_get? fun k => ?_
  change ((∅ : OrderedMap K V).union m).get? k = m.get? k
  simp [get?_union]

end OrderedMap
end Appchain
