import Appchain.Proofs.OpenedContexts
import Appchain.Proofs.StoreContents

/-!
# Contexts over the application's stores

As long as the application's stores are open and only they are written to, every
read answers from their contents, and every write changes the contents of one
store.
-/

namespace Appchain

open StoreKey MultiStore

namespace Context

variable {c d : Context} {key : StoreKey}

/-- The stores are open, and only they have been written to. -/
structure Sound (c : Context) : Prop where
  assembled : c.store.Assembled
  fits : Fits c.writes

theorem Sound.sees (h : c.Sound) : c.Sees application := ⟨assembled_iff.mp h.assembled, h.fits⟩

theorem sound_new {s : MultiStore} (h : s.Assembled) (header : Header) (mode : Mode) :
    (Context.new s header mode).Sound where
  assembled := h
  fits := (sees_new (assembled_iff.mp h) header mode).within

/-- A context that differs in the contents of one store. -/
structure Updated (c : Context) (key : StoreKey) (t : Tree) (d : Context) : Prop where
  store_eq : d.store = c.store
  mode_eq : d.mode = c.mode
  fits : Fits d.writes
  here : d.contents key = t
  elsewhere : ∀ {other : StoreKey}, other ∈ application → other ≠ key → d.contents other = c.contents other

theorem Updated.sound (h : c.Updated key t d) (hc : c.Sound) : d.Sound where
  assembled := h.store_eq ▸ hc.assembled
  fits := h.fits

end Context

namespace Exec

variable {c : Context} {key : StoreKey}

theorem run_read_contents (h : c.Sound) (hk : key ∈ application) (k : Bytes) :
    (read key k).run.run c = (.ok ((c.contents key).get? k), c) := run_read_opened h.sees hk k

theorem run_scan_contents (h : c.Sound) (hk : key ∈ application) (p : Bytes) :
    (scan key p).run.run c =
      (.ok ((c.contents key).filterKeys fun k => p.isPrefixOf k).entries, c) :=
  run_scan_opened h.sees hk p

/-- A change that keeps to the writes of the view. -/
theorem run_change_contents (h : c.Sound) (hk : key ∈ application) {f : View → View}
    {g : Tree → Tree} (ht : ∀ v, (f v).tree = v.tree) (hp : ∀ v, (f v).pending = v.pending)
    (hf : ∀ v, (f v).contents = g v.contents) :
    ∃ d, (change key f).run.run c = (.ok (), d) ∧ c.Updated key (g (c.contents key)) d := by
  obtain ⟨d, hr, hc⟩ := run_change_opened h.sees declared_application hk ht hp hf
  exact ⟨d, hr, hc.store_eq, hc.mode_eq, hc.within, hc.here, hc.elsewhere⟩

end Exec
end Appchain
