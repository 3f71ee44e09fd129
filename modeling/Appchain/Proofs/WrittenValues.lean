import Appchain.Proofs.WireTransactions

/-!
# Values as they are written

Whatever value is written, it is written as data with a few containers inside one
another at most, so it can be read as any value again. If a record is read at all, its
first fields are what their own members say. So the messages of a transaction that is
read are the ones that were written, without a word about its fee.
-/

namespace Appchain

namespace Json

variable {α β : Type} {n : Nat}

/-- Data with at most `n` containers inside one another. -/
structure Limited (n : Nat) (v : Json) : Prop where
  isData : v.isData = true
  nesting_le : v.nesting ≤ n

/-- Fields that are written as such data. -/
structure Members.Limited (m : Members α) (n : Nat) (a : α) : Prop where
  values : ∀ e ∈ m.write a, Json.Limited n e.2

theorem limited_word (n : Nat) (w : UInt64) : Limited n (Shape.word.write w) := ⟨rfl, Nat.zero_le n⟩

theorem limited_text (n : Nat) (t : String) : Limited n (Shape.text.write t) := ⟨rfl, Nat.zero_le n⟩

theorem Limited.list {s : Shape α} {as : List α} (h : ∀ a ∈ as, Limited n (s.write a)) :
    Limited (n + 1) (s.list.write as) where
  isData := areData_iff.mpr (List.forall_mem_map.mpr fun a ha => (h a ha).isData)
  nesting_le := by
    simp only [Shape.list, nesting, Nat.add_le_add_iff_right, nestingItems_le_iff, List.forall_mem_map]
    exact fun a ha => (h a ha).nesting_le

theorem Limited.field {s : Shape α} {a : α} (h : Limited n (s.write a)) (name : String)
    (p : Presence α) : (Members.field name s p).Limited n a := ⟨List.forall_mem_singleton.mpr h⟩

namespace Members

variable {m : Members α} {k : Members β}

theorem Limited.append {p : α × β} (hm : m.Limited n p.1) (hk : k.Limited n p.2) :
    (m ++ k).Limited n p := ⟨List.forall_mem_append.mpr ⟨hm.values, hk.values⟩⟩

theorem Limited.iso {b : β} {view : β → α} (h : m.Limited n (view b)) (make : α → β) :
    (m.iso make view).Limited n b := ⟨h.values⟩

theorem Limited.shape {a : α} (h : m.Limited n a) : Json.Limited (n + 1) (m.shape.write a) where
  isData := areDataMembers_iff.mpr fun e he => (h.values e he).isData
  nesting_le := by
    simp only [Members.shape, nesting, Nat.add_le_add_iff_right, nestingMembers_le_iff]
    exact fun e he => (h.values e he).nesting_le

/-- Taking the members into two groups of fields takes them into the first one. -/
theorem takeAll_append_left {ms : List (Bytes × Doc)} {x y : (m.append k).Draft}
    (h : (m.append k).takeAll (fun _ => .ok ()) x ms = .ok y) :
    m.takeAll (fun _ => .ok ()) x.1 ms = .ok y.1 := by
  induction ms generalizing x with
  | nil =>
    cases h
    rfl
  | cons e ms ih =>
    obtain ⟨key, doc⟩ := e
    rw [Members.takeAll] at h ⊢
    cases hkey : ofRaw key with
    | none =>
      rw [hkey] at h
      cases h
    | some name =>
      cases hm : m.take name doc x.1 with
      | some r =>
        have htake : (m.append k).take name doc x = some (r.map (·, x.2)) := by
          simp only [Members.append, hm]
        simp only [hkey, htake, hm] at h ⊢
        cases r with
        | ok d => exact ih (x := (d, x.2)) h
        | error f => cases h
      | none =>
        have htake : (m.append k).take name doc x =
            (k.take name doc x.2).map fun r => r.map (x.1, ·) := by
          simp only [Members.append, hm]
        simp only [hkey, htake, hm] at h ⊢
        cases hk : k.take name doc x.2 with
        | none =>
          simp only [hk, Option.map_none] at h
          exact ih h
        | some r =>
          simp only [hk, Option.map_some] at h
          cases r with
          | ok d => exact ih (x := (x.1, d)) h
          | error f => cases h

/-- The first fields of a record are read by themselves as they are read with the record. -/
theorem read_append_left {ms : List (Bytes × Doc)} {p : α × β}
    (h : (m.append k).shape.read (.object ms true) = .ok p) :
    m.shape.read (.object ms true) = .ok p.1 := by
  simp only [Members.shape, Members.read] at h ⊢
  cases ht : (m.append k).takeAll (fun _ => .ok ()) (m.append k).blank ms with
  | error f =>
    rw [ht] at h
    cases h
  | ok d =>
    rw [ht] at h
    have hleft : m.takeAll (fun _ => .ok ()) m.blank ms = .ok d.1 := takeAll_append_left ht
    rw [hleft]
    obtain ⟨a, ha, h⟩ := Outcome.bind_eq_ok.mp h
    obtain ⟨b, -, h⟩ := Outcome.bind_eq_ok.mp h
    cases h
    exact ha

theorem takeAll_iso (make : α → β) (view : β → α) (ms : List (Bytes × Doc)) (d : m.Draft) :
    (m.iso make view).takeAll (fun _ => .ok ()) d ms = m.takeAll (fun _ => .ok ()) d ms := by
  induction ms generalizing d with
  | nil => rfl
  | cons e ms ih =>
    obtain ⟨key, doc⟩ := e
    simp only [Members.takeAll]
    cases ofRaw key with
    | none => rfl
    | some name =>
      have htake : (m.iso make view).take name doc d = m.take name doc d := rfl
      cases hm : m.take name doc d with
      | none =>
        simp only [htake, hm]
        exact ih d
      | some r =>
        simp only [htake, hm]
        cases r with
        | ok d => exact ih d
        | error f => rfl

theorem read_iso {make : α → β} {view : β → α} {ms : List (Bytes × Doc)} {b : β}
    (h : (m.iso make view).shape.read (.object ms true) = .ok b) :
    ∃ a, m.shape.read (.object ms true) = .ok a ∧ make a = b := by
  simp only [Members.shape, Members.read] at h ⊢
  have hiso := takeAll_iso make view ms m.blank
  cases ht : m.takeAll (fun _ => .ok ()) m.blank ms with
  | error f =>
    rw [show (m.iso make view).blank = m.blank from rfl, hiso, ht] at h
    cases h
  | ok d =>
    rw [show (m.iso make view).blank = m.blank from rfl, hiso, ht] at h
    exact Outcome.map_eq_ok.mp h

/-- Members that are none of the fields leave the draft as it is. -/
theorem Selective.takeAll_eq (hm : m.Selective) {ms : List (String × Json)}
    (h : ∀ e ∈ ms, e.1 ∉ m.names) (d : m.Draft) :
    m.takeAll (fun _ => .ok ()) d (memberDocs ms) = .ok d := by
  induction ms with
  | nil => rfl
  | cons e ms ih =>
    obtain ⟨he, hms⟩ := List.forall_mem_cons.mp h
    have ht := hm.take_eq_none e.1 e.2.toDoc d he
    rw [memberDocs, Members.takeAll, ofRaw_raw]
    simp only [ht]
    exact ih hms

/-- A field that stands once among other members is taken from its own. -/
theorem takeAll_field {name : String} {s : Shape α} {p : Presence α} {ms : List (String × Json)}
    {v : Json} (hd : (ms.map Prod.fst).Nodup) (hv : (name, v) ∈ ms) :
    (field name s p).takeAll (fun _ => .ok ()) none (memberDocs ms) = (s.read v.toDoc).map some := by
  induction ms with
  | nil => cases hv
  | cons e ms ih =>
    obtain ⟨k, w⟩ := e
    obtain ⟨hfresh, hms⟩ := List.nodup_cons.mp hd
    simp only [memberDocs, Members.takeAll, ofRaw_raw]
    rcases List.mem_cons.mp hv with heq | hin
    · cases heq
      have hother : ∀ e ∈ ms, e.1 ∉ (field name s p).names := by
        intro e he hk
        rw [← List.mem_singleton.mp hk] at hfresh
        exact hfresh (List.mem_map.mpr ⟨e, he, rfl⟩)
      have ht : (field name s p).take name v.toDoc none = some ((s.read v.toDoc).map some) := if_pos rfl
      simp only [ht]
      cases s.read v.toDoc with
      | error f => rfl
      | ok a => exact (selective_field name s p).takeAll_eq hother (some a)
    · have hk : k ≠ name := by
        rintro rfl
        exact hfresh (List.mem_map.mpr ⟨_, hin, rfl⟩)
      have ht : (field name s p).take k w.toDoc none = none := if_neg hk
      simp only [ht]
      exact ih hms hin

/-- A field that stands once among other members is read from its own. -/
theorem read_field {name : String} {s : Shape α} {p : Presence α} {ms : List (String × Json)} {v : Json}
    (hd : (ms.map Prod.fst).Nodup) (hv : (name, v) ∈ ms) {a : α}
    (h : (field name s p).shape.read (Json.object ms).toDoc = .ok a) : s.read v.toDoc = .ok a := by
  simp only [Members.shape, toDoc, Members.read] at h
  rw [show (field name s p).blank = none from rfl, takeAll_field hd hv] at h
  cases hr : s.read v.toDoc with
  | error f =>
    rw [hr] at h
    cases h
  | ok b =>
    rw [hr] at h
    cases h
    rfl

end Members

theorem Shape.Portable.limited {s : Shape α} {a : α} (h : s.Portable n a) : Limited n (s.write a) :=
  ⟨h.isData, h.nesting_le⟩

end Json

variable {α β : Type} {n : Nat}

/-- A value whose JSON is data with at most `n` containers inside one another. -/
structure Wire.Limited (w : Wire α) (n : Nat) (a : α) : Prop where
  json : Json.Limited n (w.json.write a)

/-- Fields whose JSON is such data. -/
structure Fields.Limited (f : Fields α) (n : Nat) (a : α) : Prop where
  members : f.members.Limited n a

namespace Wire

theorem limited_word (n : Nat) (w : UInt64) : Wire.word.Limited n w := ⟨Json.limited_word n w⟩

theorem limited_text (n : Nat) (t : String) : Wire.text.Limited n t := ⟨Json.limited_text n t⟩

namespace Limited

theorem list {w : Wire α} {as : List α} (h : ∀ a ∈ as, w.Limited n a) : w.list.Limited (n + 1) as :=
  ⟨.list fun a ha => (h a ha).json⟩

theorem refine {w : Wire α} {view : β → α} {b : β} (h : w.Limited n (view b))
    (check : α → Except Fault β) : (w.refine view check).Limited n b := ⟨h.json⟩

theorem field {w : Wire α} {a : α} (h : w.Limited n a) (name : String) (p : Json.Presence α) :
    (Fields.field name w p).Limited n a := ⟨h.json.field name p⟩

end Limited
end Wire

namespace Fields.Limited

theorem append {f : Fields α} {g : Fields β} {p : α × β} (hf : f.Limited n p.1)
    (hg : g.Limited n p.2) : (f ++ g).Limited n p := ⟨hf.members.append hg.members⟩

theorem record {f : Fields α} {view : β → α} {b : β} (h : f.Limited n (view b)) (make : α → β) :
    (f.record make view).Limited (n + 1) b := ⟨(h.members.iso make).shape⟩

end Fields.Limited

open Wire (limited_word limited_text)

theorem Address.limited (n : Nat) (a : Address) : Address.wire.Limited n a :=
  (limited_text n a.hex).refine _

theorem Coin.limited (n : Nat) (c : Coin) : Coin.wire.Limited (n + 1) c :=
  (((limited_text n _).field _ _).append ((limited_word n _).field _ _)).record _

theorem Coins.limited (n : Nat) (a : Coins) : Coins.wire.Limited (n + 2) a :=
  (Wire.Limited.list fun c _ => c.limited n).refine _

theorem Packet.limited (n : Nat) (p : Packet) : Packet.wire.Limited (n + 3) p :=
  (((((Address.limited _ _).field _ _).append ((Address.limited _ _).field _ _)).append
    ((Coins.limited n _).field _ _)).append ((limited_text _ _).field _ _)).append
    ((limited_text _ _).field _ _) |>.record _

theorem Send.limited (n : Nat) (m : Send) : Send.wire.Limited (n + 3) m :=
  ((((Address.limited _ _).field _ _).append ((Address.limited _ _).field _ _)).append
    ((Coins.limited n _).field _ _)).record _

theorem Transfer.limited (n : Nat) (m : Transfer) : Transfer.wire.Limited (n + 4) m :=
  ((Packet.limited n _).field _ _).record _

theorem Receive.limited (n : Nat) (m : Receive) : Receive.wire.Limited (n + 4) m :=
  ((((Packet.limited n _).field _ _).append ((Address.limited _ _).field _ _)).append
    ((limited_word _ _).field _ _)).record _

theorem Fee.limited (n : Nat) (f : Fee) : Fee.wire.Limited (n + 3) f :=
  (((Coins.limited n _).field _ _).append ((limited_word _ _).field _ _)).record _

/-- Also where its coins could not be read back, a message is written as data. -/
theorem Message.limited (m : Message) : Json.Limited Tagged.maximumNesting (Tagged.body m).json := by
  cases m with
  | send m => exact (Send.limited 1 m).json
  | transfer m => exact (Transfer.limited 0 m).json
  | receive m => exact (Receive.limited 0 m).json
  | bond m => exact (BondStake.portable 2 m).json.limited
  | unbond m => exact (Unbond.portable 3 m).json.limited
  | mine m => exact (Mine.portable 3 m).json.limited
  | setTrend m => exact (SetTrend.portable 3 m).json.limited
  | quiz m => exact (Quiz.portable 3 m).json.limited

namespace TransactionOf

open Json

variable {μ : Type} {s : Shape μ} {t u : TransactionOf μ}

theorem limited (h : ∀ m ∈ t.messages, Json.Limited (n + 2) (s.write m)) :
    Json.Limited (n + 4) ((shape s).write t) :=
  (((((Limited.list h).field _ _).append ((Fee.limited n t.fee).json.field _ _)).append
    ((Limited.list fun x _ => (Signature.portable (n + 1) x).json.limited).field _ _)).append
    ((Json.limited_text _ _).field _ _)).iso _ |>.shape

/-- The messages of a transaction are read as they were written, if the transaction is read at
all. -/
theorem messages_of_read (hm : s.list.sorting.ReadsBack t.messages)
    (h : (shape s).read ((shape s).write t).sorted.toDoc = .ok u) : u.messages = t.messages := by
  obtain ⟨ms, hwrite, hmsgs, hnames⟩ : ∃ ms, (shape s).write t = .object ms ∧
      ("msgs", s.list.write t.messages) ∈ ms ∧
      ms.map Prod.fst = ["msgs", "fee", "signatures", "memo"] :=
    ⟨_, rfl, List.mem_cons_self .., rfl⟩
  have hp := perm_memberMap (hnames ▸ by decide : (ms.map Prod.fst).Nodup)
  have hd : ((memberMap (ms.map fun m => (m.1, m.2.sorted))).entries.map Prod.fst).Nodup := by
    rw [(hp.map Prod.fst).nodup_iff, List.map_map]
    exact hnames ▸ by decide
  have hin : ("msgs", (s.list.write t.messages).sorted) ∈
      (memberMap (ms.map fun m => (m.1, m.2.sorted))).entries :=
    hp.mem_iff.mpr (List.mem_map_of_mem hmsgs)
  rw [hwrite, sorted, sortedMembers_eq_map, ofMembers, toDoc] at h
  obtain ⟨a, ha, rfl⟩ := Members.read_iso h
  have hfield := Members.read_append_left (Members.read_append_left (Members.read_append_left ha))
  have hread := Members.read_field hd hin hfield
  exact Except.ok.inj (hread.symm.trans hm.read_write)

end TransactionOf
end Appchain
