import Appchain.Proofs.Decoding
import Appchain.Proofs.TaggedValues

/-!
# What is decoded has been checked

`Yields` says that every value that is read has a property, whatever it is read
from. Documents and bytes are read by the same checks, so a record has the property
in both encodings as soon as one of its fields carries it.
-/

namespace Appchain

open Outcome

namespace Json

variable {α β : Type}

/-- Every value that is read has the property. -/
structure Shape.Yields (s : Shape α) (P : α → Prop) : Prop where
  of_read : ∀ d a, s.read d = .ok a → P a

theorem Doc.hereditary_true : Doc.Hereditary fun _ => True :=
  ⟨fun _ _ _ => trivial, fun _ _ _ => trivial⟩

namespace Shape

theorem yields_iff {s : Shape α} {P : α → Prop} :
    s.Yields P ↔ s.YieldsOn (fun _ => True) P :=
  ⟨fun h => ⟨fun d a _ => h.of_read d a⟩, fun h => ⟨fun d a => h.of_read d a trivial⟩⟩

theorem yields_true (s : Shape α) : s.Yields fun _ => True := ⟨fun _ _ _ => trivial⟩

theorem yields_refine {s : Shape α} {view : β → α} {check : α → Except Fault β} {P : β → Prop}
    (h : ∀ a b, check a = .ok b → P b) : (s.refine view check).Yields P where
  of_read d b hb := by
    obtain ⟨a, -, ha⟩ := bind_eq_ok.mp hb
    exact h a b ha

theorem Yields.list {s : Shape α} {P : α → Prop} (h : s.Yields P) :
    s.list.Yields fun as => ∀ a ∈ as, P a :=
  yields_iff.mpr ((yields_iff.mp h).list Doc.hereditary_true)

theorem Yields.decode {s : Shape α} {P : α → Prop} (h : s.Yields P) {text : Bytes} {a : α}
    (hd : s.decode text = .ok a) : P a := (yields_iff.mp h).decode trivial hd

end Shape

/-- Some property of the drafts carries over to every value that is read. -/
structure Members.Yields (m : Members α) (P : α → Prop) : Prop where
  of_drafts : ∃ I : m.Draft → Prop, I m.blank ∧
    (∀ k d x y, I x → m.take k d x = some (.ok y) → I y) ∧ ∀ x a, I x → m.finish x = .ok a → P a
  of_items : ∀ ds a r, m.ofItems ds = .ok (a, r) → P a

namespace Members

theorem yields_iff {m : Members α} {P : α → Prop} : m.Yields P ↔ m.YieldsOn (fun _ => True) P := by
  constructor
  · rintro ⟨⟨I, hb, ht, hf⟩, hi⟩
    exact ⟨⟨I, hb, fun k d x y _ => ht k d x y, hf⟩, fun ds a r _ => hi ds a r⟩
  · rintro ⟨⟨I, hb, ht, hf⟩, hi⟩
    exact ⟨⟨I, hb, fun k d x y => ht k d x y trivial, hf⟩, fun ds a r => hi ds a r fun _ _ => trivial⟩

theorem yields_field {name : String} {s : Shape α} {p : Presence α} {P : α → Prop}
    (h : s.Yields P) (hp : ∀ a, p.inObject = some a → P a) : (field name s p).Yields P :=
  yields_iff.mpr (yieldsOn_field (Shape.yields_iff.mp h) hp)

theorem yields_required {name : String} {s : Shape α} {P : α → Prop} (h : s.Yields P) :
    (field name s .required).Yields P :=
  yields_field h fun _ ha => by cases ha

theorem Yields.iso {m : Members α} {P : α → Prop} (h : m.Yields P) {make : α → β} {view : β → α}
    {Q : β → Prop} (hq : ∀ a, P a → Q (make a)) : (m.iso make view).Yields Q :=
  yields_iff.mpr ((yields_iff.mp h).iso hq)

theorem Yields.left {m : Members α} {P : α → Prop} (h : m.Yields P) (n : Members β) :
    (m.append n).Yields fun p => P p.1 := yields_iff.mpr ((yields_iff.mp h).left n)

theorem Yields.right {n : Members β} {P : β → Prop} (h : n.Yields P) (m : Members α) :
    (m.append n).Yields fun p => P p.2 :=
  yields_iff.mpr ((yields_iff.mp h).right fun _ _ _ _ _ _ _ => trivial)

theorem Yields.flatten {own : Members β} {P : β → Prop} (h : own.Yields P) (depth : Nat)
    (inner : Members α) : (Members.flatten depth inner own).Yields fun p => P p.2 where
  of_drafts := by
    obtain ⟨I, hb, ht, hf⟩ := h.of_drafts
    refine ⟨fun x : List (String × Json) × own.Draft => I x.2, hb, ?_, ?_⟩
    · intro k d x y hx hy
      simp only [Members.flatten, Option.some.injEq] at hy
      split at hy
      · next r hr =>
        obtain ⟨e, rfl, rfl⟩ := map_eq_ok.mp hy
        exact ht k d x.2 e hx hr
      · obtain ⟨v, -, rfl⟩ := map_eq_ok.mp hy
        exact hx
    · intro x p hx hp
      obtain ⟨b, hb, hp⟩ := bind_eq_ok.mp hp
      obtain ⟨a, -, hp⟩ := bind_eq_ok.mp hp
      cases hp
      exact hf x.2 b hx hb
  of_items ds p r hr := by cases hr

theorem Yields.shape {m : Members α} {P : α → Prop} (h : m.Yields P) : m.shape.Yields P :=
  Shape.yields_iff.mpr ((yields_iff.mp h).shape Doc.hereditary_true)

theorem Yields.strictShape {m : Members α} {P : α → Prop} (h : m.Yields P) :
    m.strictShape.Yields P :=
  Shape.yields_iff.mpr ((yields_iff.mp h).strictShape Doc.hereditary_true)

end Members
end Json

variable {α β : Type}

/-- Every value that is read has the property. -/
structure Layout.Yields (l : Layout α) (P : α → Prop) : Prop where
  of_read : ∀ b a r, l.read b = .ok (a, r) → P a

namespace Layout

variable {l : Layout α} {P : α → Prop}

theorem yields_true (l : Layout α) : l.Yields fun _ => True := ⟨fun _ _ _ _ => trivial⟩

theorem yields_refine {view : β → α} {check : α → Except Fault β} {Q : β → Prop}
    (h : ∀ a b, check a = .ok b → Q b) : (l.refine view check).Yields Q where
  of_read b x r hr := by
    unfold Layout.refine at hr
    simp only at hr
    split at hr
    · next a t ha =>
      obtain ⟨y, hy, he⟩ := map_eq_ok.mp hr
      cases he
      exact h a _ hy
    · cases hr

namespace Yields

theorem decode (h : l.Yields P) {b : Bytes} {a : α} (hd : l.decode b = .ok a) : P a := by
  obtain ⟨r, hr, rfl⟩ := map_eq_ok.mp hd
  exact h.of_read b r.1 r.2 hr

theorem readItems (h : l.Yields P) {n : Nat} {b : Bytes} {as : List α} {r : Bytes}
    (hr : Layout.readItems l.read n b = .ok (as, r)) : ∀ a ∈ as, P a := by
  induction n generalizing b as with
  | zero =>
    cases hr
    exact nofun
  | succ n ih =>
    unfold Layout.readItems at hr
    split at hr
    · next a t ha =>
      obtain ⟨q, hq, he⟩ := map_eq_ok.mp hr
      cases he
      exact List.forall_mem_cons.mpr ⟨h.of_read b a t ha, ih hq⟩
    · cases hr

theorem list (h : l.Yields P) : l.list.Yields fun as => ∀ a ∈ as, P a where
  of_read b as r hr := by
    unfold Layout.list at hr
    simp only at hr
    split at hr
    · exact h.readItems hr
    · cases hr

theorem left (h : l.Yields P) (m : Layout β) : (l.append m).Yields fun p => P p.1 where
  of_read b p r hr := by
    unfold Layout.append at hr
    simp only at hr
    split at hr
    · next a t ha =>
      obtain ⟨q, -, he⟩ := map_eq_ok.mp hr
      cases he
      exact h.of_read b a t ha
    · cases hr

theorem right (h : l.Yields P) (m : Layout β) : (m.append l).Yields fun p => P p.2 where
  of_read b p r hr := by
    unfold Layout.append at hr
    simp only at hr
    split at hr
    · next x t hx =>
      obtain ⟨q, hq, he⟩ := map_eq_ok.mp hr
      cases he
      exact h.of_read t q.1 q.2 hq
    · cases hr

theorem iso (h : l.Yields P) {make : α → β} {view : β → α} {Q : β → Prop}
    (hq : ∀ a, P a → Q (make a)) : (l.iso make view).Yields Q where
  of_read b x r hr := by
    obtain ⟨q, ha, he⟩ := map_eq_ok.mp hr
    cases he
    exact hq q.1 (h.of_read b q.1 q.2 ha)

end Yields
end Layout

/-- Every value that is read from either encoding has the property. -/
structure Wire.Yields (w : Wire α) (P : α → Prop) : Prop where
  json : w.json.Yields P
  binary : w.binary.Yields P

/-- Every value of the fields that is read from either encoding has the property. -/
structure Fields.Yields (f : Fields α) (P : α → Prop) : Prop where
  members : f.members.Yields P
  layout : f.layout.Yields P

namespace Wire

variable {w : Wire α} {P : α → Prop}

theorem yields_true (w : Wire α) : w.Yields fun _ => True :=
  ⟨Json.Shape.yields_true _, Layout.yields_true _⟩

theorem yields_refine {view : β → α} {check : α → Except Fault β} {Q : β → Prop}
    (h : ∀ a b, check a = .ok b → Q b) : (w.refine view check).Yields Q :=
  ⟨Json.Shape.yields_refine h, Layout.yields_refine h⟩

namespace Yields

theorem list (h : w.Yields P) : w.list.Yields fun as => ∀ a ∈ as, P a :=
  ⟨h.json.list, h.binary.list⟩

theorem field (h : w.Yields P) (name : String) {p : Json.Presence α}
    (hp : ∀ a, p.inObject = some a → P a) : (Fields.field name w p).Yields P :=
  ⟨Json.Members.yields_field h.json hp, h.binary⟩

theorem required (h : w.Yields P) (name : String) : (Fields.field name w).Yields P :=
  h.field name nofun

theorem decode (h : w.Yields P) {format : Format} {b : Bytes} {a : α}
    (hd : w.decode format b = .ok a) : P a := by
  cases format with
  | json => exact h.json.decode hd
  | binary => exact h.binary.decode hd

end Yields
end Wire

namespace Fields.Yields

variable {f : Fields α} {P : α → Prop}

theorem left (h : f.Yields P) (g : Fields β) : (f ++ g).Yields fun p => P p.1 :=
  ⟨h.members.left g.members, h.layout.left g.layout⟩

theorem right (h : f.Yields P) (g : Fields β) : (g ++ f).Yields fun p => P p.2 :=
  ⟨h.members.right g.members, h.layout.right g.layout⟩

theorem record (h : f.Yields P) {make : α → β} {view : β → α} {Q : β → Prop}
    (hq : ∀ a, P a → Q (make a)) : (f.record make view).Yields Q :=
  ⟨(h.members.iso hq).shape, h.layout.iso hq⟩

end Fields.Yields

/-- Every value that the reader reads has the property. -/
structure Reader.Yields (r : Reader α) (P : α → Prop) : Prop where
  ofDoc : ∀ d a, r.ofDoc d = .ok a → P a
  ofBytes : ∀ b a, r.ofBytes b = .ok a → P a

theorem Wire.Yields.reader {w : Wire α} {P : α → Prop} (h : w.Yields P) {make : α → β}
    {Q : β → Prop} (hq : ∀ a, P a → Q (make a)) : (w.reader make).Yields Q where
  ofDoc d b hr := by
    obtain ⟨a, ha, rfl⟩ := map_eq_ok.mp hr
    exact hq a (h.json.of_read d a ha)
  ofBytes b x hr := by
    obtain ⟨a, ha, rfl⟩ := map_eq_ok.mp hr
    exact hq a (h.binary.decode ha)

namespace TypeRegistry

variable [Tagged α] {P : α → Prop} {r : TypeRegistry} {a : α}
  (h : ∀ tag (reader : Reader α), Tagged.reader? tag = some reader → reader.Yields P)
include h

/-- What is taken out of an envelope has been checked. -/
theorem of_ofEnvelope {e : Envelope} (he : r.ofEnvelope e = .ok a) : P a := by
  obtain ⟨-, reader, hr, ha⟩ := ofEnvelope_eq_ok.mp he
  exact (h e.tag reader hr).ofDoc _ a ha

/-- What is read from tagged bytes has been checked. -/
theorem of_ofBytes {b : Bytes} (hb : r.ofBytes b = .ok a) : P a := by
  obtain ⟨tag, payload, -, -, reader, hr, ha⟩ := ofBytes_eq_ok.mp hb
  exact (h tag reader hr).ofBytes payload a ha

end TypeRegistry
end Appchain
