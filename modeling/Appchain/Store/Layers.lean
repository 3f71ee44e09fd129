import Appchain.OrderedMap
import Appchain.Bytes

/-!
# Merging ranges of entries

A scan of a store walks through the entries of its layers side by side, each in
ascending order. The merged entries are those of the map that the writes make of
the entries below them.
-/

namespace Appchain

open Std

namespace Layers

/-- The entries from `p` on, as long as their keys start with `p`. -/
def range {V : Type} (p : Bytes) (es : List (Bytes × V)) : List (Bytes × V) :=
  (es.dropWhile fun e => compare e.1 p = .lt).takeWhile fun e => p.isPrefixOf e.1

/-- A write before what follows. A deletion yields no entry. -/
def emit (w : Bytes × Option Bytes) (rest : List (Bytes × Bytes)) : List (Bytes × Bytes) :=
  match w.2 with
  | some value => (w.1, value) :: rest
  | none => rest

/-- Entries under writes that shadow them, both in ascending order. -/
def merge : List (Bytes × Bytes) → List (Bytes × Option Bytes) → List (Bytes × Bytes)
  | es, [] => es
  | [], w :: ws => emit w (merge [] ws)
  | e :: es, w :: ws =>
    match compare e.1 w.1 with
    | .lt => e :: merge es (w :: ws)
    | .eq => emit w (merge es ws)
    | .gt => emit w (merge (e :: es) ws)
termination_by es ws => es.length + ws.length

/-- Strictly ascending by key, as the entries of a map are. -/
abbrev Increasing {V : Type} (es : List (Bytes × V)) : Prop :=
  es.Pairwise fun a b => compare a.1 b.1 = .lt

variable {es : List (Bytes × Bytes)} {ws : List (Bytes × Option Bytes)} {k p : Bytes}

theorem compare_ne_lt_of_prefix {k : Bytes} (h : p <+: k) : compare k p ≠ .lt := by
  obtain ⟨r, rfl⟩ := h
  induction p with
  | nil => cases r <;> nofun
  | cons x p ih =>
    rw [List.cons_append, List.compare_cons_cons]
    simpa using ih

/-- Keys between `p` and a key that starts with `p` start with `p`. -/
theorem prefix_of_between {j : Bytes} (h : p <+: j) (hp : compare k p ≠ .lt)
    (hj : compare k j = .lt) : p <+: k := by
  obtain ⟨r, rfl⟩ := h
  induction p generalizing k with
  | nil => exact List.nil_prefix
  | cons x p ih =>
    cases k with
    | nil => exact absurd rfl hp
    | cons y k =>
      rw [List.compare_cons_cons] at hp
      rw [List.cons_append, List.compare_cons_cons] at hj
      cases hc : compare y x with
      | lt => simp [hc] at hp
      | gt => simp [hc] at hj
      | eq =>
        cases LawfulEqCmp.eq_of_compare hc
        rw [hc] at hp hj
        exact List.cons_prefix_cons.mpr ⟨rfl, ih hp hj⟩

/-- Once a key that is not below `p` does not start with `p`, no later one does. -/
theorem takeWhile_eq_filter {V : Type} {es : List (Bytes × V)} (h : Increasing es)
    (hp : ∀ e ∈ es, compare e.1 p ≠ .lt) :
    (es.takeWhile fun e => p.isPrefixOf e.1) = es.filter fun e => p.isPrefixOf e.1 := by
  induction es with
  | nil => rfl
  | cons e es ih =>
    obtain ⟨he, hes⟩ := List.pairwise_cons.mp h
    by_cases hpre : p.isPrefixOf e.1 = true
    · rw [List.takeWhile_cons, if_pos hpre, List.filter_cons, if_pos hpre,
        ih hes fun x hx => hp x (List.mem_cons_of_mem e hx)]
    · rw [List.takeWhile_cons, if_neg hpre, List.filter_cons, if_neg hpre, eq_comm,
        List.filter_eq_nil_iff]
      intro x hx hpx
      refine hpre (List.isPrefixOf_iff_prefix.mpr ?_)
      exact prefix_of_between (List.isPrefixOf_iff_prefix.mp hpx) (hp e (List.mem_cons_self ..))
        (he x hx)

theorem range_eq_filter {V : Type} (p : Bytes) {es : List (Bytes × V)} (h : Increasing es) :
    range p es = es.filter fun e => p.isPrefixOf e.1 := by
  unfold range
  induction es with
  | nil => rfl
  | cons e es ih =>
    obtain ⟨he, hes⟩ := List.pairwise_cons.mp h
    by_cases hlt : compare e.1 p = .lt
    · have hpre : ¬ p.isPrefixOf e.1 = true := fun hpre =>
        compare_ne_lt_of_prefix (List.isPrefixOf_iff_prefix.mp hpre) hlt
      rw [List.dropWhile_cons, if_pos (decide_eq_true hlt), List.filter_cons, if_neg hpre, ih hes]
    · rw [List.dropWhile_cons, if_neg (by simpa using hlt)]
      refine takeWhile_eq_filter h fun x hx hxp => ?_
      rcases List.mem_cons.mp hx with rfl | hx
      · exact hlt hxp
      · exact hlt (TransCmp.lt_trans (he x hx) hxp)

theorem range_entries {V : Type} (p : Bytes) (m : OrderedMap Bytes V) :
    range p m.entries = (m.filterKeys fun k => p.isPrefixOf k).entries :=
  range_eq_filter p m.ascending

theorem mem_emit {w : Bytes × Option Bytes} {rest : List (Bytes × Bytes)} {value : Bytes} :
    (k, value) ∈ emit w rest ↔ w = (k, some value) ∨ (k, value) ∈ rest := by
  obtain ⟨j, value'⟩ := w
  cases value' <;> simp [emit, eq_comm]

theorem above_emit {w : Bytes × Option Bytes} {rest : List (Bytes × Bytes)}
    (hw : compare k w.1 = .lt) (hr : ∀ x ∈ rest, compare k x.1 = .lt) :
    ∀ x ∈ emit w rest, compare k x.1 = .lt := by
  rintro ⟨j, value⟩ hx
  rcases mem_emit.mp hx with rfl | hx
  · exact hw
  · exact hr _ hx

/-- What is below all keys of both lists is below all keys of the merged one. -/
theorem above_merge (he : ∀ e ∈ es, compare k e.1 = .lt) (hw : ∀ w ∈ ws, compare k w.1 = .lt) :
    ∀ x ∈ merge es ws, compare k x.1 = .lt := by
  induction es, ws using merge.induct with
  | case1 es =>
    rw [merge]
    exact he
  | case2 w ws ih =>
    rw [merge]
    exact above_emit (hw w (List.mem_cons_self ..)) (ih he fun x hx => hw x (List.mem_cons_of_mem w hx))
  | case3 e es w ws hc ih =>
    rw [merge, hc]
    intro x hx
    rcases List.mem_cons.mp hx with rfl | hx
    · exact he x (List.mem_cons_self ..)
    · exact ih (fun x hx => he x (List.mem_cons_of_mem e hx)) hw x hx
  | case4 e es w ws hc ih =>
    rw [merge, hc]
    exact above_emit (hw w (List.mem_cons_self ..))
      (ih (fun x hx => he x (List.mem_cons_of_mem e hx)) fun x hx => hw x (List.mem_cons_of_mem w hx))
  | case5 e es w ws hc ih =>
    rw [merge, hc]
    exact above_emit (hw w (List.mem_cons_self ..)) (ih he fun x hx => hw x (List.mem_cons_of_mem w hx))

theorem increasing_emit {w : Bytes × Option Bytes} {rest : List (Bytes × Bytes)}
    (hr : Increasing rest) (hw : ∀ x ∈ rest, compare w.1 x.1 = .lt) : Increasing (emit w rest) := by
  obtain ⟨j, value⟩ := w
  cases value with
  | none => exact hr
  | some value => exact List.pairwise_cons.mpr ⟨hw, hr⟩

/-- All keys of an ascending list are above a key below its head. -/
theorem above_of_head {V : Type} {e : Bytes × V} {es : List (Bytes × V)} (h : Increasing (e :: es))
    (hk : compare k e.1 = .lt) : ∀ x ∈ e :: es, compare k x.1 = .lt := by
  intro x hx
  rcases List.mem_cons.mp hx with rfl | hx
  · exact hk
  · exact TransCmp.lt_trans hk ((List.pairwise_cons.mp h).1 x hx)

theorem increasing_merge (he : Increasing es) (hw : Increasing ws) : Increasing (merge es ws) := by
  induction es, ws using merge.induct with
  | case1 es =>
    rw [merge]
    exact he
  | case2 w ws ih =>
    rw [merge]
    obtain ⟨hw, hws⟩ := List.pairwise_cons.mp hw
    exact increasing_emit (ih he hws) (above_merge nofun hw)
  | case3 e es w ws hc ih =>
    rw [merge, hc]
    obtain ⟨he, hes⟩ := List.pairwise_cons.mp he
    exact List.pairwise_cons.mpr ⟨above_merge he (above_of_head hw hc), ih hes hw⟩
  | case4 e es w ws hc ih =>
    rw [merge, hc]
    obtain ⟨he, hes⟩ := List.pairwise_cons.mp he
    obtain ⟨hw, hws⟩ := List.pairwise_cons.mp hw
    exact increasing_emit (ih hes hws) (above_merge (LawfulEqCmp.eq_of_compare hc ▸ he) hw)
  | case5 e es w ws hc ih =>
    rw [merge, hc]
    obtain ⟨hw, hws⟩ := List.pairwise_cons.mp hw
    exact increasing_emit (ih he hws) (above_merge (above_of_head he (OrientedCmp.lt_of_gt hc)) hw)

theorem ne_of_above {j : Bytes} (h : compare k j = .lt) : j ≠ k := by
  rintro rfl
  simp at h

/-- What is merged are the values that are written, and the entries that are not written to. -/
theorem mem_merge (he : Increasing es) (hw : Increasing ws) {value : Bytes} :
    (k, value) ∈ merge es ws ↔
      (k, some value) ∈ ws ∨ (∀ w ∈ ws, w.1 ≠ k) ∧ (k, value) ∈ es := by
  induction es, ws using merge.induct with
  | case1 es => simp [merge]
  | case2 w ws ih =>
    rw [merge, mem_emit, ih he (List.pairwise_cons.mp hw).2]
    simp [eq_comm]
  | case3 e es w ws hc ih =>
    rw [merge, hc]
    obtain ⟨he, hes⟩ := List.pairwise_cons.mp he
    have habove := above_of_head hw hc
    rw [List.mem_cons, ih hes hw, List.mem_cons (a := (k, value))]
    constructor
    · rintro (rfl | h | ⟨hn, h⟩)
      · exact .inr ⟨fun x hx => ne_of_above (habove x hx), .inl rfl⟩
      · exact .inl h
      · exact .inr ⟨hn, .inr h⟩
    · rintro (h | ⟨hn, rfl | h⟩)
      · exact .inr (.inl h)
      · exact .inl rfl
      · exact .inr (.inr ⟨hn, h⟩)
  | case4 e es w ws hc ih =>
    rw [merge, hc]
    obtain ⟨he, hes⟩ := List.pairwise_cons.mp he
    obtain ⟨hw, hws⟩ := List.pairwise_cons.mp hw
    -- The head of the entries is written to, so it is what the write says or nothing.
    have hew : w.1 = e.1 := (LawfulEqCmp.eq_of_compare hc).symm
    rw [mem_emit, ih hes hws, List.mem_cons, List.mem_cons, List.forall_mem_cons]
    constructor
    · rintro (rfl | h | ⟨hn, h⟩)
      · exact .inl (.inl rfl)
      · exact .inl (.inr h)
      · exact .inr ⟨⟨fun hk => ne_of_above (he _ h) (hk.symm.trans hew), hn⟩, .inr h⟩
    · rintro ((rfl | h) | ⟨⟨hwk, hn⟩, rfl | h⟩)
      · exact .inl rfl
      · exact .inr (.inl h)
      · exact absurd hew hwk
      · exact .inr (.inr ⟨hn, h⟩)
  | case5 e es w ws hc ih =>
    rw [merge, hc]
    have habove := above_of_head he (OrientedCmp.lt_of_gt hc)
    obtain ⟨hw, hws⟩ := List.pairwise_cons.mp hw
    rw [mem_emit, ih he hws, List.mem_cons (b := w), List.forall_mem_cons]
    constructor
    · rintro (rfl | h | ⟨hn, h⟩)
      · exact .inl (.inl rfl)
      · exact .inl (.inr h)
      · exact .inr ⟨⟨fun hk => ne_of_above (habove _ h) hk.symm, hn⟩, h⟩
    · rintro ((rfl | h) | ⟨⟨-, hn⟩, h⟩)
      · exact .inl rfl
      · exact .inr (.inl h)
      · exact .inr (.inr ⟨hn, h⟩)

/-- Merging the entries of a map with the writes to it yields what the writes make of the map. -/
theorem merge_entries (m : OrderedMap Bytes Bytes) (w : OrderedMap Bytes (Option Bytes)) :
    merge m.entries w.entries = (m.override w).entries := by
  suffices h : ⟨merge m.entries w.entries, increasing_merge m.ascending w.ascending⟩ = m.override w from
    congrArg OrderedMap.entries h
  refine OrderedMap.ext_mem fun k value => ?_
  rw [mem_merge m.ascending w.ascending, OrderedMap.mem_entries_iff, OrderedMap.mem_entries_iff,
    OrderedMap.mem_entries_iff, OrderedMap.get?_override]
  cases hk : w.get? k with
  | none =>
    have hn : ∀ e ∈ w.entries, e.1 ≠ k := by
      rintro ⟨j, v⟩ he rfl
      rw [OrderedMap.mem_entries_iff, hk] at he
      cases he
    simp only [Option.getD_none, reduceCtorEq, false_or]
    exact and_iff_right hn
  | some v =>
    have hn : ¬ ∀ e ∈ w.entries, e.1 ≠ k := fun hn =>
      hn (k, v) ((OrderedMap.mem_entries_iff w k v).mpr hk) rfl
    rw [Option.getD_some, Option.some_inj, or_iff_left fun h => hn h.1]

end Layers
end Appchain
