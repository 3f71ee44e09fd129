import Appchain.Json.Printed
import Appchain.Proofs.SortedValues
import Appchain.Wire

/-!
# Data that reads back

A value round-trips if it is written as data and read back from it. It is portable
if it is read back even after the members of its objects have been sorted, and is
not nested too deeply to be read as any value on the way. Both pass through lists
and records: the members of a record have distinct names, so it does not matter in
which order they are taken. A type that is encoded in both ways is portable if its
bytes are read back as well.
-/

namespace Appchain

namespace Json

variable {α β : Type}

theorem areDataMembers_append (xs ys : List (String × Json)) :
    areDataMembers (xs ++ ys) = (areDataMembers xs && areDataMembers ys) := by
  induction xs with
  | nil => rfl
  | cons x xs ih => rw [List.cons_append, areDataMembers, areDataMembers, ih, Bool.and_assoc]

/-- A value that is written as data and reads back. -/
structure Shape.RoundTrips (s : Shape α) (a : α) : Prop where
  readsBack : s.ReadsBack a
  isData : (s.write a).isData = true

/-- Fields that are written as data, read back and leave other members alone. -/
structure Members.RoundTrips (m : Members α) (a : α) : Prop where
  readsBack : m.ReadsBack a
  selective : m.Selective
  areData : areDataMembers (m.write a) = true

namespace Shape

theorem roundTrips_word (n : UInt64) : word.RoundTrips n := ⟨readsBack_word n, rfl⟩

theorem roundTrips_text (t : String) : text.RoundTrips t := ⟨readsBack_text t, rfl⟩

theorem RoundTrips.list {s : Shape α} {as : List α} (h : ∀ a ∈ as, s.RoundTrips a) :
    s.list.RoundTrips as where
  readsBack := .list fun a ha => (h a ha).readsBack
  isData := by
    change areData (as.map s.write) = true
    induction as with
    | nil => rfl
    | cons a as ih =>
      rw [List.map_cons, areData, (h a (List.mem_cons_self ..)).isData,
        ih fun b hb => h b (List.mem_cons_of_mem a hb)]
      rfl

theorem RoundTrips.field {s : Shape α} {a : α} (h : s.RoundTrips a) (name : String)
    (p : Presence α) : (Members.field name s p).RoundTrips a where
  readsBack := Members.readsBack_field h.readsBack
  selective := Members.selective_field ..
  areData := by
    change ((s.write a).isData && true) = true
    rw [h.isData]
    rfl

end Shape

namespace Members

theorem RoundTrips.append {m : Members α} {n : Members β} {p : α × β} (hm : m.RoundTrips p.1)
    (hn : n.RoundTrips p.2) (hd : ∀ k ∈ n.names, k ∉ m.names) : (m ++ n).RoundTrips p where
  readsBack := hm.readsBack.append hn.readsBack hm.selective hd
  selective := hm.selective.append hn.selective
  areData := by
    change areDataMembers (m.write p.1 ++ n.write p.2) = true
    rw [areDataMembers_append, hm.areData, hn.areData]
    rfl

theorem RoundTrips.iso {m : Members α} {make : α → β} {view : β → α} {b : β}
    (h : m.RoundTrips (view b)) (hb : make (view b) = b) : (m.iso make view).RoundTrips b :=
  ⟨h.readsBack.iso hb, h.selective.iso make view, h.areData⟩

theorem RoundTrips.shape {m : Members α} {a : α} (h : m.RoundTrips a) : m.shape.RoundTrips a :=
  ⟨h.readsBack.shape, h.areData⟩

theorem RoundTrips.strictShape {m : Members α} {a : α} (h : m.RoundTrips a) :
    m.strictShape.RoundTrips a :=
  ⟨h.readsBack.strictShape, h.areData⟩

/-- Members that are not of the own fields are put aside. -/
theorem takes_aside {depth : Nat} {inner : Members α} {own : Members β} (ho : own.Selective)
    {ms : List (String × Json)} (hd : ∀ e ∈ ms, e.1 ∉ own.names)
    (hv : ∀ e ∈ ms, ofDoc (depth + 1) e.2.toDoc = .ok e.2) (xs : List (String × Json))
    (d : own.Draft) : (flatten depth inner own).Takes (xs, d) ms (xs ++ ms, d) := by
  induction ms generalizing xs with
  | nil =>
    rw [List.append_nil]
    exact .nil _
  | cons m ms ih =>
    have hn := ho.take_eq_none m.1 m.2.toDoc d (hd m (List.mem_cons_self ..))
    have hi := ih (fun e he => hd e (List.mem_cons_of_mem m he))
      (fun e he => hv e (List.mem_cons_of_mem m he)) (xs ++ [m])
    rw [List.append_assoc] at hi
    refine .cons ?_ hi
    simp only [flatten, hn, hv m (List.mem_cons_self ..)]
    rfl

theorem Takes.own {depth : Nat} {inner : Members α} {own : Members β} {d e : own.Draft}
    {ms : List (String × Json)} (h : own.Takes d ms e) (xs : List (String × Json)) :
    (flatten depth inner own).Takes (xs, d) ms (xs, e) := by
  induction h with
  | nil => exact .nil _
  | cons ht _ ih =>
    refine .cons ?_ ih
    simp only [flatten, ht]
    rfl

/-- Fields among other fields read back if they are written as values that read back. -/
theorem RoundTrips.flatten {depth : Nat} {inner : Members α} {own : Members β} {p : α × β}
    (hi : inner.RoundTrips p.1) (ho : own.RoundTrips p.2)
    (hd : ∀ k ∈ inner.names, k ∉ own.names)
    (hv : ∀ e ∈ inner.write p.1, ofDoc (depth + 1) e.2.toDoc = .ok e.2) :
    (Members.flatten depth inner own).ReadsBack p where
  names e he := by
    change e.1 ∈ inner.names ++ own.names
    rcases List.mem_append.mp he with he | he
    · exact List.mem_append_left _ (hi.readsBack.names e he)
    · exact List.mem_append_right _ (ho.readsBack.names e he)
  takes := by
    obtain ⟨x, hx, hfx⟩ := hi.readsBack.takes
    obtain ⟨y, hy, hfy⟩ := ho.readsBack.takes
    have ha : (Members.flatten depth inner own).Takes ([], own.blank) (inner.write p.1)
        (inner.write p.1, own.blank) :=
      takes_aside ho.selective (fun e he => hd e.1 (hi.readsBack.names e he)) hv [] own.blank
    refine ⟨(inner.write p.1, y), ha.trans (hy.own _), ?_⟩
    have ht := hx.takeAll fun _ => .ok ()
    simp only [Members.flatten, hfy, ht, hfx, bind, Except.bind]
    rfl

end Members

namespace Shape

/-- The values are sorted when they are written. -/
def sorting (s : Shape α) : Shape α := ⟨fun a => (s.write a).sorted, s.read⟩

/-- A value that reads back with or without its members sorted, and has at most `n` containers
inside one another. -/
structure Portable (s : Shape α) (n : Nat) (a : α) : Prop extends s.RoundTrips a where
  sorting : s.sorting.ReadsBack a
  nesting_le : (s.write a).nesting ≤ n

theorem portable_word (n : Nat) (w : UInt64) : word.Portable n w :=
  ⟨roundTrips_word w, ⟨(readsBack_word w).read_write⟩, Nat.zero_le n⟩

theorem portable_text (n : Nat) (t : String) : text.Portable n t :=
  ⟨roundTrips_text t, ⟨(readsBack_text t).read_write⟩, Nat.zero_le n⟩

theorem portable_optionalText (n : Nat) (t : Option String) : text.optional.Portable n t := by
  cases t with
  | none => exact ⟨⟨⟨rfl⟩, rfl⟩, ⟨rfl⟩, Nat.zero_le n⟩
  | some t =>
    have hr : text.optional.ReadsBack (some t) := .optional fun x _ => ⟨readsBack_text x, nofun⟩
    exact ⟨⟨hr, rfl⟩, ⟨hr.read_write⟩, Nat.zero_le n⟩

theorem Portable.list {s : Shape α} {n : Nat} {as : List α} (h : ∀ a ∈ as, s.Portable n a) :
    s.list.Portable (n + 1) as where
  toRoundTrips := .list fun a ha => (h a ha).toRoundTrips
  sorting := by
    have hr : s.sorting.list.ReadsBack as := .list fun a ha => (h a ha).sorting
    have hw : s.list.sorting.write as = s.sorting.list.write as := by
      simp [Shape.sorting, Shape.list, Json.sorted]
    exact ⟨hw ▸ hr.read_write⟩
  nesting_le := by
    simp only [Shape.list, nesting, Nat.add_le_add_iff_right, nestingItems_le_iff, List.forall_mem_map]
    exact fun a ha => (h a ha).nesting_le

theorem Portable.refine {s : Shape α} {n : Nat} {view : β → α} {check : α → Except Fault β} {b : β}
    (h : s.Portable n (view b)) (hc : check (view b) = .ok b) :
    (s.refine view check).Portable n b :=
  ⟨⟨h.readsBack.refine hc, h.isData⟩, ⟨(h.sorting.refine hc).read_write⟩, h.nesting_le⟩

/-- Any value that has been sorted is read as it is. -/
theorem portable_any {v : Json} {depth n : Nat} (hd : v.isData = true) (hn : v.nesting ≤ n)
    (hm : depth + n ≤ maximumDepth) : (any depth).Portable n v.sorted where
  readsBack := ⟨ofDoc_sorted hd (by omega)⟩
  isData := isData_sorted v hd
  sorting := by
    constructor
    change ofDoc depth v.sorted.sorted.toDoc = _
    rw [sorted_sorted]
    exact ofDoc_sorted hd (by omega)
  nesting_le := Nat.le_trans (nesting_sorted_le v) hn

end Shape

namespace Members

/-- Fields that are read back in whatever order they come, when they are sorted inside. -/
structure Portable (m : Members α) (n : Nat) (a : α) : Prop extends m.RoundTrips a where
  distinct : ((m.write a).map Prod.fst).Nodup
  takes_sorted : ∀ ms, ms.Perm ((m.write a).map fun e => (e.1, e.2.sorted)) →
    ∃ d, m.Takes m.blank ms d ∧ m.finish d = .ok a
  nesting_le : ∀ e ∈ m.write a, e.2.nesting ≤ n

/-- Members of two groups are parted by the names of the first one. -/
theorem perm_filter_names {ms as bs : List (String × Json)} {names : List String}
    (hp : ms.Perm (as ++ bs)) (ha : ∀ e ∈ as, e.1 ∈ names) (hb : ∀ e ∈ bs, e.1 ∉ names) :
    (ms.filter fun e => e.1 ∈ names).Perm as ∧ (ms.filter fun e => e.1 ∉ names).Perm bs := by
  constructor
  · have hfilter : (as ++ bs).filter (fun e => e.1 ∈ names) = as := by
      rw [List.filter_append, List.filter_eq_self.mpr (by simpa using ha),
        List.filter_eq_nil_iff.mpr (by simpa using hb), List.append_nil]
    exact (hp.filter _).trans (.of_eq hfilter)
  · have hfilter : (as ++ bs).filter (fun e => e.1 ∉ names) = bs := by
      rw [List.filter_append, List.filter_eq_nil_iff.mpr (by simpa using ha),
        List.filter_eq_self.mpr (by simpa using hb), List.nil_append]
    exact (hp.filter _).trans (.of_eq hfilter)

/-- Members are taken by the fields that they belong to, each in their own order. -/
theorem Takes.interleave {m : Members α} {n : Members β} (hm : m.Selective)
    {ms : List (String × Json)} {d d' : m.Draft} {x x' : n.Draft}
    (h : m.Takes d (ms.filter fun e => e.1 ∈ m.names) d')
    (g : n.Takes x (ms.filter fun e => e.1 ∉ m.names) x') :
    (m.append n).Takes (d, x) ms (d', x') := by
  induction ms generalizing d x with
  | nil =>
    cases h
    cases g
    exact .nil _
  | cons e ms ih =>
    by_cases he : e.1 ∈ m.names
    · rw [List.filter_cons_of_pos (by simpa using he)] at h
      rw [List.filter_cons_of_neg (by simpa using he)] at g
      cases h with
      | cons ht hrest =>
        refine .cons ?_ (ih hrest g)
        simp only [Members.append, ht]
        rfl
    · rw [List.filter_cons_of_neg (by simpa using he)] at h
      rw [List.filter_cons_of_pos (by simpa using he)] at g
      cases g with
      | @cons _ y _ k v _ ht hrest =>
        have hk := hm.take_eq_none k v.toDoc d he
        refine .cons ?_ (ih h hrest)
        simp only [Members.append, hk, ht]
        rfl

namespace Portable

theorem append {m : Members α} {k : Members β} {n : Nat} {p : α × β} (hm : m.Portable n p.1)
    (hk : k.Portable n p.2) (hd : ∀ name ∈ k.names, name ∉ m.names) : (m ++ k).Portable n p where
  toRoundTrips := hm.toRoundTrips.append hk.toRoundTrips hd
  distinct := by
    change ((m.write p.1 ++ k.write p.2).map Prod.fst).Nodup
    rw [List.map_append, List.nodup_append]
    refine ⟨hm.distinct, hk.distinct, ?_⟩
    simp only [List.forall_mem_map]
    intro e he f hf heq
    exact hd f.1 (hk.readsBack.names f hf) (heq ▸ hm.readsBack.names e he)
  takes_sorted ms hp := by
    have hp : ms.Perm ((m.write p.1).map (fun e => (e.1, e.2.sorted)) ++
        (k.write p.2).map fun e => (e.1, e.2.sorted)) := hp.trans (.of_eq List.map_append)
    obtain ⟨hleft, hright⟩ := perm_filter_names hp
      (List.forall_mem_map.mpr fun e he => hm.readsBack.names e he)
      (List.forall_mem_map.mpr fun e he => hd e.1 (hk.readsBack.names e he))
    obtain ⟨d, hd₁, hf₁⟩ := hm.takes_sorted _ hleft
    obtain ⟨x, hx₁, hg₁⟩ := hk.takes_sorted _ hright
    refine ⟨(d, x), hd₁.interleave hm.selective hx₁, ?_⟩
    change (m.append k).finish (d, x) = _
    simp [Members.append, hf₁, hg₁, bind, Except.bind, pure, Except.pure]
  nesting_le e he := by
    rcases List.mem_append.mp he with he | he
    · exact hm.nesting_le e he
    · exact hk.nesting_le e he

theorem iso {m : Members α} {n : Nat} {make : α → β} {view : β → α} {b : β}
    (h : m.Portable n (view b)) (hb : make (view b) = b) : (m.iso make view).Portable n b where
  toRoundTrips := h.toRoundTrips.iso hb
  distinct := h.distinct
  takes_sorted ms hp := by
    obtain ⟨d, hd, hf⟩ := h.takes_sorted ms hp
    exact ⟨d, hd.iso make view, by simp [Members.iso, hf, hb, Except.map]⟩
  nesting_le := h.nesting_le

theorem shape {m : Members α} {n : Nat} {a : α} (h : m.Portable n a) :
    m.shape.Portable (n + 1) a where
  toRoundTrips := h.toRoundTrips.shape
  sorting := by
    obtain ⟨d, hd, hf⟩ := h.takes_sorted _ (perm_memberMap h.distinct)
    constructor
    simp only [Shape.sorting, Members.shape, sorted, sortedMembers_eq_map, ofMembers, toDoc,
      Members.read, hd.takeAll, hf, if_true]
  nesting_le := by
    simp only [Members.shape, nesting, Nat.add_le_add_iff_right, nestingMembers_le_iff]
    exact h.nesting_le

end Portable
end Members

theorem Shape.Portable.field {s : Shape α} {n : Nat} {a : α} (h : s.Portable n a) (name : String)
    (p : Presence α) : (Members.field name s p).Portable n a where
  toRoundTrips := h.toRoundTrips.field name p
  distinct := by simp [Members.field]
  takes_sorted ms hp := by
    refine ⟨some a, ?_, rfl⟩
    rw [List.perm_singleton.mp hp]
    refine .cons ?_ (.nil _)
    have hr : s.read (s.write a).sorted.toDoc = .ok a := h.sorting.read_write
    simp [Members.field, hr, Except.map]
  nesting_le e he := by
    rw [List.mem_singleton.mp he]
    exact h.nesting_le

end Json

/-! Both encodings together. -/

variable {α β : Type} {n : Nat}

/-- A value whose JSON is portable and whose bytes are read back. -/
structure Wire.Portable (w : Wire α) (n : Nat) (a : α) : Prop where
  json : w.json.Portable n a
  binary : w.binary.ReadsBack a

/-- The fields of a portable record. -/
structure Fields.Portable (f : Fields α) (n : Nat) (a : α) : Prop where
  members : f.members.Portable n a
  layout : f.layout.ReadsBack a

namespace Wire

theorem portable_word (n : Nat) (w : UInt64) : Wire.word.Portable n w :=
  ⟨Json.Shape.portable_word n w, Layout.readsBack_word w⟩

theorem portable_text (n : Nat) (t : String) : Wire.text.Portable n t :=
  ⟨Json.Shape.portable_text n t, Layout.readsBack_text t⟩

theorem portable_optionalText (n : Nat) (t : Option String) : Wire.text.optional.Portable n t :=
  ⟨Json.Shape.portable_optionalText n t, .optional fun _ _ => Layout.readsBack_text _⟩

namespace Portable

theorem list {w : Wire α} {as : List α} (h : ∀ a ∈ as, w.Portable n a) :
    w.list.Portable (n + 1) as :=
  ⟨.list fun a ha => (h a ha).json, .list fun a ha => (h a ha).binary⟩

theorem refine {w : Wire α} {view : β → α} {check : α → Except Fault β} {b : β}
    (h : w.Portable n (view b)) (hc : check (view b) = .ok b) : (w.refine view check).Portable n b :=
  ⟨h.json.refine hc, h.binary.refine hc⟩

theorem field {w : Wire α} {a : α} (h : w.Portable n a) (name : String) (p : Json.Presence α) :
    (Fields.field name w p).Portable n a :=
  ⟨h.json.field name p, h.binary⟩

end Portable
end Wire

namespace Fields.Portable

theorem append {f : Fields α} {g : Fields β} {p : α × β} (hf : f.Portable n p.1)
    (hg : g.Portable n p.2) (hd : ∀ k ∈ g.members.names, k ∉ f.members.names) :
    (f ++ g).Portable n p :=
  ⟨hf.members.append hg.members hd, hf.layout.append hg.layout⟩

theorem iso {f : Fields α} {make : α → β} {view : β → α} {b : β} (h : f.Portable n (view b))
    (hb : make (view b) = b) : (f.iso make view).Portable n b :=
  ⟨h.members.iso hb, h.layout.iso hb⟩

theorem wire {f : Fields α} {a : α} (h : f.Portable n a) : f.wire.Portable (n + 1) a :=
  ⟨h.members.shape, h.layout⟩

theorem record {f : Fields α} {make : α → β} {view : β → α} {b : β} (h : f.Portable n (view b))
    (hb : make (view b) = b) : (f.record make view).Portable (n + 1) b :=
  (h.iso hb).wire

end Fields.Portable
end Appchain
