import Appchain.Proofs.OpenedStores

/-!
# Contents seen by a context

A context sees the stores of the block under its own writes. As long as some
stores are open and only they are written to, every read of them answers from
these contents, every write changes the contents of one store, and other stores
are not mounted.
-/

namespace Appchain

open StoreKey MultiStore

variable {keys : List StoreKey} {c d : Context} {key : StoreKey}

namespace Context

/-- What a store holds under the writes of the context. -/
def contents (c : Context) (key : StoreKey) : Tree :=
  (c.store.contents key).override (c.writes.of key.name)

/-- The store can be read and written. -/
def Opens (c : Context) (key : StoreKey) : Prop := ∃ v, c.store.view key = .ok v

theorem Opens.view (h : c.Opens key) :
    ∃ v, c.view key = .ok v ∧ v.writes = c.writes.of key.name ∧ v.contents = c.contents key := by
  obtain ⟨u, hu⟩ := h
  refine ⟨{ u with writes := c.writes.of key.name }, ?_, rfl, ?_⟩
  · unfold Context.view
    rw [hu]
    rfl
  · unfold contents
    rw [← MultiStore.contents_of_view hu]
    unfold View.contents
    rw [MultiStore.writes_of_view hu, OrderedMap.override_empty]

/-- The stores are open, and only they have been written to. -/
structure Sees (keys : List StoreKey) (c : Context) : Prop where
  opened : c.store.Opened keys
  within : c.writes.Within keys

theorem sees_new {s : MultiStore} (h : s.Opened keys) (header : Header) (mode : Mode) :
    (Context.new s header mode).Sees keys where
  opened := h
  within name hn := by
    obtain ⟨w, hw⟩ := OrderedMap.contains_iff.mp hn
    cases hw

theorem Sees.opens (h : c.Sees keys) (hk : key ∈ keys) : c.Opens key := by
  obtain ⟨v, hv, -⟩ := h.opened.view hk
  exact ⟨v, hv⟩

theorem Sees.view (h : c.Sees keys) (hk : key ∈ keys) :
    ∃ v, c.view key = .ok v ∧ v.contents = c.contents key := by
  obtain ⟨v, hv, -, hc⟩ := (h.opens hk).view
  exact ⟨v, hv, hc⟩

theorem Sees.view_of_not_mem (h : c.Sees keys) (hk : key ∉ keys) :
    c.view key = .error (.notMounted key.name) := by
  unfold Context.view
  rw [h.opened.view_of_not_mem hk]
  rfl

/-- A context that differs in the contents of one store. -/
structure Changed (keys : List StoreKey) (c : Context) (key : StoreKey) (t : Tree) (d : Context) :
    Prop where
  store_eq : d.store = c.store
  mode_eq : d.mode = c.mode
  within : d.writes.Within keys
  here : d.contents key = t
  elsewhere : ∀ {other : StoreKey}, other ∈ keys → other ≠ key → d.contents other = c.contents other

theorem Changed.sees {t : Tree} (h : c.Changed keys key t d) (hc : c.Sees keys) : d.Sees keys where
  opened := h.store_eq ▸ hc.opened
  within := h.within

theorem Sees.withView (h : c.Sees keys) (hk : key ∈ keys) (w : View) :
    (c.withView key w).Sees keys where
  opened := h.opened
  within name hn := by
    rcases OrderedMap.contains_insert.mp hn with rfl | hn
    · exact ⟨key, hk, rfl⟩
    · exact h.within name hn

theorem Sees.changed (h : c.Sees keys) (hd : Declared keys) (hk : key ∈ keys) {v w : View}
    (hv : c.view key = .ok v) (ht : w.tree = v.tree) (hp : w.pending = v.pending) :
    c.Changed keys key w.contents (c.withView key w) where
  store_eq := rfl
  mode_eq := rfl
  within := (h.withView hk w).within
  here := by
    obtain ⟨x, hx, hc⟩ := (h.withView hk w).view hk
    rw [view_withView_self hv ht hp] at hx
    cases hx
    exact hc.symm
  elsewhere {other} ho hne := by
    have hname : other.name ≠ key.name := mt (hd.eq_of_name_eq ho hk) hne
    unfold contents Context.withView
    rw [Writes.of_insert, if_neg hname]

end Context

open Context

namespace Exec

theorem run_read_of_opens (h : c.Opens key) (k : Bytes) :
    (read key k).run.run c = (.ok ((c.contents key).get? k), c) := by
  obtain ⟨v, hv, -, hc⟩ := h.view
  rw [run_read, hv, ← hc, ← View.get_eq_contents]
  rfl

theorem run_read_opened (h : c.Sees keys) (hk : key ∈ keys) (k : Bytes) :
    (read key k).run.run c = (.ok ((c.contents key).get? k), c) := run_read_of_opens (h.opens hk) k

theorem run_scan_opened (h : c.Sees keys) (hk : key ∈ keys) (p : Bytes) :
    (scan key p).run.run c =
      (.ok ((c.contents key).filterKeys fun k => p.isPrefixOf k).entries, c) := by
  obtain ⟨v, hv, hc⟩ := h.view hk
  rw [run_scan, hv, ← hc, ← View.scan_eq_contents]
  rfl

/-- A change that keeps to the writes of the view. -/
theorem run_change_opened (h : c.Sees keys) (hd : Declared keys) (hk : key ∈ keys) {f : View → View}
    {g : Tree → Tree} (ht : ∀ v, (f v).tree = v.tree) (hp : ∀ v, (f v).pending = v.pending)
    (hf : ∀ v, (f v).contents = g v.contents) :
    ∃ d, (change key f).run.run c = (.ok (), d) ∧ c.Changed keys key (g (c.contents key)) d := by
  obtain ⟨v, hv, hc⟩ := h.view hk
  refine ⟨c.withView key (f v), ?_, ?_⟩
  · rw [run_change, hv]
  · rw [← hc, ← hf]
    exact h.changed hd hk hv (ht v) (hp v)

end Exec
end Appchain
