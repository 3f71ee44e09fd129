import Appchain.Json.Record
import Appchain.Proofs.Outcomes

/-!
# What is read from documents

`YieldsOn D P` says that every value that is read from a document with the
property `D` has the property `P`. A property of documents that carries over to
their parts passes through lists and records.
-/

namespace Appchain.Json

open Outcome

variable {α β : Type} {D : Doc → Prop}

/-- A property that the parts of a document have with the whole. -/
structure Doc.Hereditary (D : Doc → Prop) : Prop where
  items : ∀ {items closed}, D (.array items closed) → ∀ d ∈ items, D d
  members : ∀ {members closed}, D (.object members closed) → ∀ e ∈ members, D e.2

/-- Every value that is read from such a document has the property. -/
structure Shape.YieldsOn (s : Shape α) (D : Doc → Prop) (P : α → Prop) : Prop where
  of_read : ∀ d a, D d → s.read d = .ok a → P a

namespace Shape

variable {s : Shape α} {P : α → Prop}

theorem length_readItems {read : Doc → Except Fault α} {ds : List Doc} {as : List α}
    (h : readItems read ds = .ok as) : as.length = ds.length := by
  induction ds generalizing as with
  | nil =>
    cases h
    rfl
  | cons d ds ih =>
    unfold readItems at h
    split at h
    · obtain ⟨bs, hb, rfl⟩ := map_eq_ok.mp h
      exact congrArg (· + 1) (ih hb)
    · cases h

theorem YieldsOn.readItems (h : s.YieldsOn D P) {ds : List Doc} {as : List α} (hd : ∀ d ∈ ds, D d)
    (hr : Shape.readItems s.read ds = .ok as) : ∀ a ∈ as, P a := by
  induction ds generalizing as with
  | nil =>
    cases hr
    exact nofun
  | cons d ds ih =>
    obtain ⟨hdd, hds⟩ := List.forall_mem_cons.mp hd
    unfold Shape.readItems at hr
    split at hr
    · next a ha =>
      obtain ⟨bs, hs, rfl⟩ := map_eq_ok.mp hr
      exact List.forall_mem_cons.mpr ⟨h.of_read d a hdd ha, ih hds hs⟩
    · cases hr

/-- A list is read from an array that has been closed. -/
theorem list_read_eq_ok {d : Doc} {as : List α} (h : s.list.read d = .ok as) :
    ∃ items, d = .array items true ∧ Shape.readItems s.read items = .ok as := by
  unfold Shape.list at h
  simp only at h
  split at h
  · next items closed =>
    split at h
    · next bs hb =>
      split at h
      · next hc =>
        cases h
        exact ⟨items, by rw [hc], hb⟩
      · cases h
    · cases h
  · cases h

theorem YieldsOn.list (hD : Doc.Hereditary D) (h : s.YieldsOn D P) :
    s.list.YieldsOn D fun as => ∀ a ∈ as, P a where
  of_read d as hd ha := by
    obtain ⟨items, rfl, hr⟩ := list_read_eq_ok ha
    exact h.readItems (hD.items hd) hr

theorem YieldsOn.decode (h : s.YieldsOn D P) {text : Bytes} {a : α} (hd : D (Doc.parse text).1)
    (hr : s.decode text = .ok a) : P a := by
  unfold Shape.decode at hr
  simp only at hr
  split at hr
  · next b hb =>
    split at hr
    · cases hr
      exact h.of_read _ _ hd hb
    · cases hr
  · cases hr

end Shape

/-- Some property of the drafts carries over to every value that is read. -/
structure Members.YieldsOn (m : Members α) (D : Doc → Prop) (P : α → Prop) : Prop where
  of_drafts : ∃ I : m.Draft → Prop, I m.blank ∧
    (∀ k d x y, D d → I x → m.take k d x = some (.ok y) → I y) ∧
    ∀ x a, I x → m.finish x = .ok a → P a
  of_items : ∀ ds a r, (∀ d ∈ ds, D d) → m.ofItems ds = .ok (a, r) → P a

namespace Members

variable {m : Members α} {n : Members β} {P : α → Prop}

/-- The items that are left have the property with all of them. -/
def PassesOn (m : Members α) (D : Doc → Prop) : Prop :=
  ∀ ds a r, (∀ d ∈ ds, D d) → m.ofItems ds = .ok (a, r) → ∀ d ∈ r, D d

theorem passesOn_field (name : String) (s : Shape α) (p : Presence α) :
    (field name s p).PassesOn D := by
  intro ds a r hd hr
  cases ds with
  | nil =>
    simp only [field] at hr
    split at hr
    · cases hr
      exact hd
    · cases hr
  | cons d ds =>
    obtain ⟨b, -, he⟩ := map_eq_ok.mp hr
    cases he
    exact (List.forall_mem_cons.mp hd).2

theorem PassesOn.append (hm : m.PassesOn D) (hn : n.PassesOn D) : (m.append n).PassesOn D := by
  intro ds p r hd hr
  obtain ⟨a, ha, hr⟩ := bind_eq_ok.mp hr
  obtain ⟨b, hb, hr⟩ := bind_eq_ok.mp hr
  cases hr
  exact hn a.2 b.1 b.2 (hm ds a.1 a.2 hd ha) hb

theorem yieldsOn_field {name : String} {s : Shape α} {p : Presence α} (h : s.YieldsOn D P)
    (hp : ∀ a, p.inObject = some a → P a) : (field name s p).YieldsOn D P where
  of_drafts := by
    refine ⟨fun draft : Option α => ∀ a, draft = some a → P a, nofun, ?_, ?_⟩
    · intro k d x y hd hx hy
      simp only [field] at hy
      split at hy
      · cases x with
        | some a => cases hy
        | none =>
          obtain ⟨a, ha, rfl⟩ := map_eq_ok.mp (Option.some.inj hy)
          intro b hb
          cases hb
          exact h.of_read d a hd ha
      · cases hy
    · intro x a hx ha
      simp only [field] at ha
      split at ha
      · next b hb =>
        cases ha
        rcases Option.or_eq_some_iff.mp hb with hb | ⟨-, hb⟩
        · exact hx a hb
        · exact hp a hb
      · cases ha
  of_items ds a r hd hr := by
    cases ds with
    | nil =>
      simp only [field] at hr
      split at hr
      · next b hb =>
        cases hr
        apply hp a
        cases p with
        | required => cases hb
        | optional _ => cases hb
        | defaulted _ => exact hb
      · cases hr
    | cons d ds =>
      obtain ⟨b, hb, he⟩ := map_eq_ok.mp hr
      cases he
      exact h.of_read d a (List.forall_mem_cons.mp hd).1 hb

theorem yieldsOn_required {name : String} {s : Shape α} (h : s.YieldsOn D P) :
    (field name s .required).YieldsOn D P :=
  yieldsOn_field h nofun

namespace YieldsOn

theorem iso (h : m.YieldsOn D P) {make : α → β} {view : β → α} {Q : β → Prop}
    (hq : ∀ a, P a → Q (make a)) : (m.iso make view).YieldsOn D Q where
  of_drafts := by
    obtain ⟨I, hb, ht, hf⟩ := h.of_drafts
    refine ⟨I, hb, ht, fun x b hx hy => ?_⟩
    obtain ⟨a, ha, rfl⟩ := map_eq_ok.mp hy
    exact hq a (hf x a hx ha)
  of_items ds b r hd hr := by
    obtain ⟨a, ha, he⟩ := map_eq_ok.mp hr
    cases he
    exact hq a.1 (h.of_items ds a.1 a.2 hd ha)

theorem left (h : m.YieldsOn D P) (n : Members β) : (m.append n).YieldsOn D fun p => P p.1 where
  of_drafts := by
    obtain ⟨I, hb, ht, hf⟩ := h.of_drafts
    refine ⟨fun x : m.Draft × n.Draft => I x.1, hb, ?_, ?_⟩
    · intro k d x y hd hx hy
      simp only [Members.append] at hy
      split at hy
      · next r hr =>
        obtain ⟨e, rfl, rfl⟩ := map_eq_ok.mp (Option.some.inj hy)
        exact ht k d x.1 e hd hx hr
      · obtain ⟨r, -, hr⟩ := Option.map_eq_some_iff.mp hy
        obtain ⟨e, -, rfl⟩ := map_eq_ok.mp hr
        exact hx
    · intro x p hx hp
      obtain ⟨a, ha, hp⟩ := bind_eq_ok.mp hp
      obtain ⟨b, -, hp⟩ := bind_eq_ok.mp hp
      cases hp
      exact hf x.1 a hx ha
  of_items ds p r hd hr := by
    obtain ⟨a, ha, hr⟩ := bind_eq_ok.mp hr
    obtain ⟨b, -, hr⟩ := bind_eq_ok.mp hr
    cases hr
    exact h.of_items ds a.1 a.2 hd ha

theorem right {Q : β → Prop} (h : n.YieldsOn D Q) (hm : m.PassesOn D) :
    (m.append n).YieldsOn D fun p => Q p.2 where
  of_drafts := by
    obtain ⟨I, hb, ht, hf⟩ := h.of_drafts
    refine ⟨fun x : m.Draft × n.Draft => I x.2, hb, ?_, ?_⟩
    · intro k d x y hd hx hy
      simp only [Members.append] at hy
      split at hy
      · obtain ⟨e, -, rfl⟩ := map_eq_ok.mp (Option.some.inj hy)
        exact hx
      · obtain ⟨r, hr, hy⟩ := Option.map_eq_some_iff.mp hy
        obtain ⟨e, rfl, rfl⟩ := map_eq_ok.mp hy
        exact ht k d x.2 e hd hx hr
    · intro x p hx hp
      obtain ⟨a, -, hp⟩ := bind_eq_ok.mp hp
      obtain ⟨b, hb, hp⟩ := bind_eq_ok.mp hp
      cases hp
      exact hf x.2 b hx hb
  of_items ds p r hd hr := by
    obtain ⟨a, ha, hr⟩ := bind_eq_ok.mp hr
    obtain ⟨b, hb, hr⟩ := bind_eq_ok.mp hr
    cases hr
    exact h.of_items a.2 b.1 b.2 (hm ds a.1 a.2 hd ha) hb

theorem takeAll {I : m.Draft → Prop}
    (ht : ∀ k d x y, D d → I x → m.take k d x = some (.ok y) → I y)
    {unknown : String → Except Fault Unit} {ms : List (Bytes × Doc)} {x y : m.Draft}
    (hd : ∀ e ∈ ms, D e.2) (hx : I x) (h : m.takeAll unknown x ms = .ok y) : I y := by
  induction ms generalizing x with
  | nil =>
    cases h
    exact hx
  | cons e ms ih =>
    obtain ⟨hde, hdm⟩ := List.forall_mem_cons.mp hd
    unfold Members.takeAll at h
    split at h
    · cases h
    · split at h
      · next z hz => exact ih hdm (ht _ _ _ _ hde hx hz) h
      · cases h
      · split at h
        · exact ih hdm hx h
        · cases h

theorem read (hD : Doc.Hereditary D) (h : m.YieldsOn D P) {unknown : String → Except Fault Unit}
    {d : Doc} {a : α} (hd : D d) (hr : m.read unknown d = .ok a) : P a := by
  obtain ⟨I, hb, ht, hf⟩ := h.of_drafts
  unfold Members.read at hr
  split at hr
  · split at hr
    · next x hx =>
      split at hr
      · exact hf x a (takeAll ht (hD.members hd) hb hx) hr
      · cases hr
    · cases hr
  · split at hr
    · next b rest hb =>
      split at hr
      · cases hr
        exact h.of_items _ a rest (hD.items hd) hb
      · cases hr
    · cases hr
  · cases hr

theorem shape (hD : Doc.Hereditary D) (h : m.YieldsOn D P) : m.shape.YieldsOn D P :=
  ⟨fun _ _ hd hr => h.read hD hd hr⟩

theorem strictShape (hD : Doc.Hereditary D) (h : m.YieldsOn D P) : m.strictShape.YieldsOn D P :=
  ⟨fun _ _ hd hr => h.read hD hd hr⟩

end YieldsOn
end Members
end Appchain.Json
