import Appchain.Proofs.Confinement

/-!
# Isolated operations

An operation reads some stores and writes to some. What it answers and what it writes
is then a matter of the stores it reads: two contexts that agree on them cannot be told
apart, whatever else they hold. The stores it does not write to are left as they were,
also when it fails after it has written.
-/

namespace Appchain

open StoreKey MultiStore

theorem OrderedMap.union_assoc {K V : Type} [Ord K] [Std.TransOrd K] [Std.LawfulEqOrd K]
    [DecidableEq K] (m v w : OrderedMap K V) : (m.union v).union w = m.union (v.union w) := by
  refine ext_get? fun k => ?_
  simp only [get?_union, Option.or_assoc]

variable {ε α β : Type} {reads writes : List StoreKey} {c d e : Context} {key : StoreKey}

namespace Context

/-- A context that has more writes, given for each store by its name, on top of those of another. -/
structure Adds (c : Context) (w : String → WriteSet) (d : Context) : Prop extends c.SameBlock d where
  fits : Fits d.writes
  writes_of : ∀ name, d.writes.of name = (c.writes.of name).union (w name)

namespace Adds

variable {v w : String → WriteSet}

theorem none (h : c.Sound) : c.Adds (fun _ => ∅) c := ⟨⟨rfl, rfl, rfl⟩, h.fits, fun _ => rfl⟩

theorem trans (h : c.Adds v d) (h' : d.Adds w e) : c.Adds (fun name => (v name).union (w name)) e where
  toSameBlock := h.toSameBlock.trans h'.toSameBlock
  fits := h'.fits
  writes_of name := by rw [h'.writes_of, h.writes_of, OrderedMap.union_assoc]

theorem sound (h : c.Adds w d) (hc : c.Sound) : d.Sound where
  assembled := h.store_eq ▸ hc.assembled
  fits := h.fits

theorem contents_eq (h : c.Adds w d) (key : StoreKey) :
    d.contents key = (c.contents key).override (w key.name) := by
  unfold contents
  rw [h.writes_of, h.store_eq, OrderedMap.override_union]

end Adds

/-- Contexts that show the same in some stores, for the same purpose. -/
structure Agree (keys : List StoreKey) (c d : Context) : Prop where
  mode_eq : d.mode = c.mode
  contents_eq : ∀ key ∈ keys, d.contents key = c.contents key

theorem Agree.adds {c' d' : Context} {w : String → WriteSet} (h : c.Agree reads c') (hd : c.Adds w d)
    (hd' : c'.Adds w d') : d.Agree reads d' where
  mode_eq := by rw [hd.mode_eq, hd'.mode_eq, h.mode_eq]
  contents_eq key hk := by rw [hd.contents_eq, hd'.contents_eq, h.contents_eq key hk]

end Context

/-- An operation whose answer and whose writes, be it successful or not, are the same in any two
contexts over the application's stores that agree on those it reads, and that writes to no others
than those it may. -/
def Isolated (reads writes : List StoreKey) (x : ExecWith ε α) : Prop :=
  ∀ c c' : Context, c.Sound → c'.Sound → c.Agree reads c' →
    ∃ (r : Except ε α) (w : String → WriteSet) (d d' : Context),
      x.run.run c = (r, d) ∧ x.run.run c' = (r, d') ∧ c.Adds w d ∧ c'.Adds w d' ∧
      ∀ name, (∀ key ∈ writes, key.name ≠ name) → w name = ∅

namespace Isolated

/-- What may not be written to is left as it was. -/
theorem frame {x : ExecWith ε α} (h : Isolated reads writes x) (hc : c.Sound) :
    ∃ r d, x.run.run c = (r, d) ∧ Fits d.writes ∧ d.store = c.store ∧
      ∀ name, (∀ key ∈ writes, key.name ≠ name) → d.writes.of name = c.writes.of name := by
  obtain ⟨r, w, d, -, hr, -, hd, -, hw⟩ := h c c hc hc ⟨rfl, fun _ _ => rfl⟩
  refine ⟨r, d, hr, hd.fits, hd.store_eq, fun name hn => ?_⟩
  rw [hd.writes_of, hw name hn]
  rfl

theorem of_same {x : ExecWith ε α} {r : Except ε α} (h : ∀ c, x.run.run c = (r, c)) :
    Isolated reads writes x := fun c c' hc hc' _ =>
  ⟨r, fun _ => ∅, c, c', h c, h c', .none hc, .none hc', fun _ _ => rfl⟩

theorem pure (a : α) : Isolated reads writes (pure a : ExecWith ε α) := of_same (r := .ok a) fun _ => rfl

theorem throw (e : ε) : Isolated reads writes (throw e : ExecWith ε α) :=
  of_same (r := .error e) fun _ => rfl

theorem lift (r : Except TxError α) : Isolated reads writes (Exec.lift r) := of_same fun _ => rfl

/-- The second operation sees in either context what the first one has written there, and this is
the same. -/
theorem bind {x : ExecWith ε α} {f : α → ExecWith ε β} (hx : Isolated reads writes x)
    (hf : ∀ a, Isolated reads writes (f a)) : Isolated reads writes (x >>= f) := by
  intro c c' hc hc' ha
  obtain ⟨r, w, d, d', hr, hr', hd, hd', hw⟩ := hx c c' hc hc' ha
  cases r with
  | error e =>
    exact ⟨.error e, w, d, d', run_bind_eq_error f hr, run_bind_eq_error f hr', hd, hd', hw⟩
  | ok a =>
    obtain ⟨s, v, e, e', hs, hs', he, he', hv⟩ :=
      hf a d d' (hd.sound hc) (hd'.sound hc') (ha.adds hd hd')
    refine ⟨s, _, e, e', (run_bind_ok hr).trans hs, (run_bind_ok hr').trans hs', hd.trans he,
      hd'.trans he', fun name hn => ?_⟩
    simp only [hw name hn, hv name hn]
    rfl

theorem map (f : α → β) {x : ExecWith ε α} (hx : Isolated reads writes x) :
    Isolated reads writes (f <$> x) := by
  rw [map_eq_pure_bind]
  exact hx.bind fun a => .pure (f a)

theorem forM {f : α → ExecWith ε PUnit} (h : ∀ a, Isolated reads writes (f a)) (as : List α) :
    Isolated reads writes (as.forM f) := by
  induction as with
  | nil => exact .pure _
  | cons a as ih => exact (h a).bind fun _ => ih

theorem mapM {f : α → ExecWith ε β} (h : ∀ a, Isolated reads writes (f a)) (as : List α) :
    Isolated reads writes (as.mapM f) := by
  induction as with
  | nil => exact .pure _
  | cons a as ih =>
    rw [List.mapM_cons]
    exact (h a).bind fun b => ih.bind fun bs => .pure _

end Isolated

namespace Exec

/-- A view may be used for what its store contains. -/
theorem isolated_view (hk : key ∈ application) (hr : key ∈ reads) {f : View → Exec α}
    {g : Tree → Exec α} (hf : ∀ v, f v = g v.contents) (hg : ∀ t, Isolated reads writes (g t)) :
    Isolated reads writes (view key >>= f) := by
  have hrun (c : Context) (hc : c.Sound) :
      (view key >>= f).run.run c = (g (c.contents key)).run.run c := by
    obtain ⟨v, hv, ht⟩ := hc.sees.view hk
    have hview : (view key).run.run c = (.ok v, c) := by
      rw [run_view, hv]
      rfl
    rw [run_bind_ok hview, hf, ht]
  intro c c' hc hc' ha
  rw [hrun c hc, hrun c' hc', ha.contents_eq key hr]
  exact hg _ c c' hc hc' ha

theorem isolated_read (hk : key ∈ application) (hr : key ∈ reads) (k : Bytes) :
    Isolated reads writes (read key k) :=
  isolated_view hk hr (g := fun t => pure (t.get? k)) (fun v => by rw [View.get_eq_contents])
    fun _ => .pure _

theorem isolated_mode : Isolated reads writes mode := fun c c' hc hc' ha =>
  ⟨.ok c.mode, fun _ => ∅, c, c', rfl, by rw [← ha.mode_eq]; rfl, .none hc, .none hc', fun _ _ => rfl⟩

/-- A change adds the same writes to whatever the store holds. -/
theorem isolated_change (hk : key ∈ application) (hw : key ∈ writes) {f : View → View} {u : WriteSet}
    (hf : ∀ v, (f v).writes = v.writes.union u) : Isolated reads writes (change key f) := by
  have hrun (c : Context) (hc : c.Sound) : ∃ d, (change key f).run.run c = (.ok (), d) ∧
      c.Adds (fun name => if name = key.name then u else ∅) d := by
    obtain ⟨v, hv, -⟩ := hc.sees.view hk
    refine ⟨c.withView key (f v), by rw [run_change, hv], ⟨rfl, rfl, rfl⟩,
      (hc.sees.withView hk _).within, fun name => ?_⟩
    have hwrites : v.writes = c.writes.of key.name := by
      unfold Context.view at hv
      obtain ⟨w, -, hv⟩ := Outcome.bind_eq_ok.mp hv
      cases hv
      rfl
    change Writes.of (c.writes.insert key.name (f v).writes) name = _
    rw [Writes.of_insert]
    split
    · next he => rw [hf, hwrites, he]
    · rfl
  intro c c' hc hc' _
  obtain ⟨d, hr, hd⟩ := hrun c hc
  obtain ⟨d', hr', hd'⟩ := hrun c' hc'
  exact ⟨.ok (), _, d, d', hr, hr', hd, hd', fun name hn => if_neg (hn key hw).symm⟩

theorem isolated_write (hk : key ∈ application) (hw : key ∈ writes) (k value : Bytes) :
    Isolated reads writes (write key k value) :=
  isolated_change hk hw (u := OrderedMap.insert ∅ k (some value)) fun _ => rfl

theorem isolated_erase (hk : key ∈ application) (hw : key ∈ writes) (k : Bytes) :
    Isolated reads writes (erase key k) :=
  isolated_change hk hw (u := OrderedMap.insert ∅ k none) fun _ => rfl

theorem isolated_decoded (r : Except Fault α) : Isolated reads writes (decoded r) := .lift _

theorem isolated_load (hk : key ∈ application) (hr : key ∈ reads) (l : Layout α) (k : Bytes) :
    Isolated reads writes (load key l k) := by
  refine (isolated_read hk hr k).bind fun value => ?_
  cases value with
  | some b => exact (isolated_decoded _).map some
  | none => exact .pure none

theorem isolated_save (hk : key ∈ application) (hw : key ∈ writes) (l : Layout α) (k : Bytes) (a : α) :
    Isolated reads writes (save key l k a) := isolated_write hk hw k _

end Exec
end Appchain
