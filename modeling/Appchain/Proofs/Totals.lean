import Mathlib.Algebra.GroupWithZero.Nat
import Appchain.OrderedMap

/-!
# Totals over maps

The total of a map adds up a share of every value. Binding a key replaces the
share of its old value, and unbinding it takes the share away. Both follow from
one description of the entries: up to order, binding a key puts one entry in the
place of the one with that key, if there was one.
-/

namespace Appchain.OrderedMap

open Std

variable {K V : Type} [Ord K]

theorem remove_eq_self {k : K} {l : List (K × V)} (h : lookup k l = none) : remove k l = l := by
  induction l with
  | nil => rfl
  | cons x l ih =>
    simp only [lookup] at h
    simp only [remove]
    split
    · rfl
    · next hc =>
      rw [hc] at h
      cases h
    · next hc =>
      rw [hc] at h
      rw [ih h]

theorem put_perm (k : K) (v : V) (l : List (K × V)) : (put k v l).Perm ((k, v) :: remove k l) := by
  induction l with
  | nil => exact .refl _
  | cons x l ih =>
    simp only [put, remove]
    split
    · exact .refl _
    · exact .refl _
    · exact (ih.cons x).trans (.swap ..)

theorem perm_of_lookup [LawfulEqOrd K] {k : K} {v : V} {l : List (K × V)}
    (h : lookup k l = some v) : l.Perm ((k, v) :: remove k l) := by
  induction l with
  | nil => cases h
  | cons x l ih =>
    simp only [lookup] at h
    simp only [remove]
    split
    · next hc =>
      rw [hc] at h
      cases h
    · next hc =>
      rw [hc] at h
      cases h
      cases LawfulEqCmp.eq_of_compare hc
      exact .refl _
    · next hc =>
      rw [hc] at h
      exact ((ih h).cons x).trans (.swap ..)

/-- The sum of the shares of the values in a list of entries. -/
def sumOf (share : V → Nat) (l : List (K × V)) : Nat := (l.map fun e => share e.2).sum

omit [Ord K] in
theorem sumOf_cons (share : V → Nat) (e : K × V) (l : List (K × V)) :
    sumOf share (e :: l) = share e.2 + sumOf share l := by
  unfold sumOf
  rw [List.map_cons, List.sum_cons]

omit [Ord K] in
theorem sumOf_eq_of_perm {l r : List (K × V)} (share : V → Nat) (h : l.Perm r) :
    sumOf share l = sumOf share r :=
  (h.map _).sum_nat

/-- The sum of the shares of all values. -/
def total (share : V → Nat) (m : OrderedMap K V) : Nat := sumOf share m.entries

/-- The share of the value of a key, if it has one. -/
def shareOf (share : V → Nat) (m : OrderedMap K V) (k : K) : Nat := ((m.get? k).map share).getD 0

variable [LawfulEqOrd K]

theorem total_erase (share : V → Nat) (m : OrderedMap K V) (k : K) :
    (m.erase k).total share + m.shareOf share k = m.total share := by
  change sumOf share (remove k m.entries) + ((lookup k m.entries).map share).getD 0
    = sumOf share m.entries
  cases h : lookup k m.entries with
  | none =>
    rw [remove_eq_self h]
    rfl
  | some v =>
    rw [sumOf_eq_of_perm share (perm_of_lookup h), sumOf_cons, Nat.add_comm]
    rfl

variable [TransOrd K]

/-- Up to order, a new key adds its entry to the others. -/
theorem perm_insert {m : OrderedMap K V} {k : K} (h : m.get? k = none) (v : V) :
    (m.insert k v).entries.Perm ((k, v) :: m.entries) := by
  have hp := put_perm k v m.entries
  rw [remove_eq_self h] at hp
  exact hp

theorem total_insert (share : V → Nat) (m : OrderedMap K V) (k : K) (v : V) :
    (m.insert k v).total share + m.shareOf share k = m.total share + share v := by
  have hi : (m.insert k v).total share = share v + (m.erase k).total share := by
    change sumOf share (put k v m.entries) = share v + sumOf share (remove k m.entries)
    rw [sumOf_eq_of_perm share (put_perm k v m.entries), sumOf_cons]
  have he := total_erase share m k
  omega

end Appchain.OrderedMap
