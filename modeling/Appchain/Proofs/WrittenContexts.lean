import Appchain.Proofs.Confinement
import Appchain.Proofs.OpenedContexts

/-!
# Contexts that have been written to

What reading and writing an open store comes to, for any context: a read answers from
the contents of the store, and a write leaves the context that has them with one value
more. `ChangesOnly` bounds what is left of a run by the keys at which it may differ from
what was there before.
-/

namespace Appchain

open Layout

namespace Context

variable {c d e : Context} {key other : StoreKey} {k j value : Bytes}

/-- The context after a value has been written. -/
def wrote (c : Context) (key : StoreKey) (k value : Bytes) : Context :=
  { c with writes := c.writes.insert key.name ((c.writes.of key.name).insert k (some value)) }

theorem Opens.wrote (h : c.Opens other) (key : StoreKey) (k value : Bytes) :
    (c.wrote key k value).Opens other := h

theorem get?_contents_wrote (c : Context) (key other : StoreKey) (k j value : Bytes) :
    ((c.wrote key k value).contents other).get? j =
      if other.name = key.name ∧ j = k then some value else (c.contents other).get? j := by
  unfold contents wrote
  rw [OrderedMap.get?_override, OrderedMap.get?_override, Writes.of_insert]
  by_cases hn : other.name = key.name
  · rw [if_pos hn, OrderedMap.get?_insert, hn]
    by_cases hj : j = k <;> simp [hj]
  · simp [hn]

theorem get?_contents_wrote_self (c : Context) (key : StoreKey) (k value : Bytes) :
    ((c.wrote key k value).contents key).get? k = some value := by
  rw [get?_contents_wrote, if_pos ⟨rfl, rfl⟩]

theorem get?_contents_wrote_of_ne (c : Context) (h : j ≠ k) :
    ((c.wrote key k value).contents other).get? j = (c.contents other).get? j := by
  rw [get?_contents_wrote, if_neg fun he => h he.2]

theorem contents_wrote_of_ne (c : Context) (h : other.name ≠ key.name) :
    (c.wrote key k value).contents other = c.contents other := by
  refine OrderedMap.ext_get? fun j => ?_
  rw [get?_contents_wrote, if_neg fun he => h he.1]

/-- What the value under a key decodes to, if there is one. -/
def stored? {α : Type} (c : Context) (key : StoreKey) (l : Layout α) (k : Bytes) :
    Except Fault (Option α) :=
  ((c.contents key).get? k).mapM l.decode

theorem stored?_wrote_self {α : Type} {l : Layout α} {a : α} (h : l.ReadsBack a) (c : Context)
    (key : StoreKey) (k : Bytes) :
    (c.wrote key k (l.write a)).stored? key l k = .ok (some a) := by
  unfold stored?
  rw [get?_contents_wrote_self, Option.mapM_some, h.decode_write]
  rfl

theorem stored?_wrote_of_ne {α : Type} (l : Layout α) (c : Context) (h : j ≠ k) :
    (c.wrote key k value).stored? other l j = c.stored? other l j := by
  unfold stored?
  rw [get?_contents_wrote_of_ne c h]

/-- A context of the same block that differs at some keys of some stores at most. -/
structure ChangesOnly (places : List (String × Bytes)) (c d : Context) : Prop where
  sameBlock : c.SameBlock d
  elsewhere : ∀ (key : StoreKey) (k : Bytes), (key.name, k) ∉ places →
    (d.contents key).get? k = (c.contents key).get? k

namespace ChangesOnly

variable {places more : List (String × Bytes)}

theorem refl (c : Context) : c.ChangesOnly places c := ⟨⟨rfl, rfl, rfl⟩, fun _ _ _ => rfl⟩

theorem trans (h : c.ChangesOnly places d) (h' : d.ChangesOnly places e) :
    c.ChangesOnly places e where
  sameBlock := h.sameBlock.trans h'.sameBlock
  elsewhere key k hk := (h'.elsewhere key k hk).trans (h.elsewhere key k hk)

theorem mono (h : c.ChangesOnly places d) (hs : places ⊆ more) : c.ChangesOnly more d where
  sameBlock := h.sameBlock
  elsewhere key k hk := h.elsewhere key k fun hp => hk (hs hp)

theorem opens (h : c.ChangesOnly places d) (hk : c.Opens key) : d.Opens key := by
  unfold Opens
  rw [h.sameBlock.store_eq]
  exact hk

/-- A write to one of the places. -/
theorem wrote (h : c.ChangesOnly places d) (hk : (key.name, k) ∈ places) (value : Bytes) :
    c.ChangesOnly places (d.wrote key k value) := by
  refine h.trans ⟨⟨rfl, rfl, rfl⟩, fun other j hj => ?_⟩
  rw [get?_contents_wrote, if_neg]
  rintro ⟨hn, rfl⟩
  exact hj (hn ▸ hk)

end ChangesOnly
end Context

open Context

namespace Exec

variable {α : Type} {c : Context} {key : StoreKey}

theorem run_write_of_opens (h : c.Opens key) (k value : Bytes) :
    (write key k value).run.run c = (.ok (), c.wrote key k value) := by
  obtain ⟨v, hv, hw, -⟩ := h.view
  unfold write
  rw [run_change, hv]
  simp only [withView, View.set, hw]
  rfl

theorem run_save_of_opens (h : c.Opens key) (l : Layout α) (k : Bytes) (a : α) :
    (save key l k a).run.run c = (.ok (), c.wrote key k (l.write a)) :=
  run_write_of_opens h k _

/-- What is found is decoded. -/
theorem run_decoded (o : Option Bytes) {decode : Bytes → Except Fault α} {a : Option α}
    (c : Context) : o.mapM decode = .ok a →
      (match o with
        | some b => some <$> decoded (decode b)
        | none => return none : Exec (Option α)).run.run c = (.ok a, c) := by
  intro ha
  cases o with
  | none =>
    cases ha
    rfl
  | some b =>
    rw [Option.mapM_some] at ha
    obtain ⟨x, hx, ha⟩ := Outcome.map_eq_ok.mp ha
    cases ha
    simp only [decoded, hx]
    rfl

theorem run_load_of_opens (h : c.Opens key) {l : Layout α} {k : Bytes} {a : Option α}
    (ha : c.stored? key l k = .ok a) : (load key l k).run.run c = (.ok a, c) := by
  unfold load
  rw [run_bind_ok (run_read_of_opens h k)]
  exact run_decoded _ c ha

end Exec
end Appchain
