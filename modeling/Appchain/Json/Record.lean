import Appchain.Json.Shape

/-!
# Records as JSON

A record is written as an object with its fields in declaration order. It is
read from an object whose members come in any order, or from an array of the
fields in declaration order. Reading an object keeps a draft of the fields seen
so far, so that a repeated field is refused at its second name, and a field that
is missing is found out when the object closes, the first declared one first.

A record reads back if its fields do and have different names
(`ReadsBack.append`): a field is never taken for one of another name.
-/

namespace Appchain.Json

/-- What stands for a field that is not written. -/
inductive Presence (α : Type) where
  | required
  /-- An object may leave the field out. -/
  | optional (value : α)
  /-- An object may leave the field out, and an array that stops before it too. -/
  | defaulted (value : α)

namespace Presence

variable {α : Type}

def inObject : Presence α → Option α
  | required => none
  | optional a => some a
  | defaulted a => some a

def inArray : Presence α → Option α
  | defaulted a => some a
  | _ => none

end Presence

/-- Some fields of a record, read and written as a value of `α`. -/
structure Members (α : Type) : Type 1 where
  Draft : Type
  blank : Draft
  names : List String
  /-- Takes a member into the draft, if it is one of these fields. -/
  take : String → Doc → Draft → Option (Except Fault Draft)
  finish : Draft → Except Fault α
  /-- Takes the fields from the front of an array. -/
  ofItems : List Doc → Except Fault (α × List Doc)
  write : α → List (String × Json)

namespace Members

variable {α β : Type}

def field (name : String) (s : Shape α) (presence : Presence α := .required) : Members α where
  Draft := Option α
  blank := none
  names := [name]
  take k d draft :=
    if k = name then
      some <|
        match draft with
        | some _ => .error (.duplicateField name)
        | none => (s.read d).map some
    else none
  finish draft :=
    match draft.or presence.inObject with
    | some a => .ok a
    | none => .error (.missingField name)
  ofItems
    | d :: ds => (s.read d).map (·, ds)
    | [] =>
      match presence.inArray with
      | some a => .ok (a, [])
      | none => .error .malformed
  write a := [(name, s.write a)]

/-- The fields of `m`, then those of `n`. -/
def append (m : Members α) (n : Members β) : Members (α × β) where
  Draft := m.Draft × n.Draft
  blank := (m.blank, n.blank)
  names := m.names ++ n.names
  take k d draft :=
    match m.take k d draft.1 with
    | some r => some (r.map (·, draft.2))
    | none => (n.take k d draft.2).map fun r => r.map (draft.1, ·)
  finish draft := do
    let a ← m.finish draft.1
    let b ← n.finish draft.2
    return (a, b)
  ofItems ds := do
    let (a, ds) ← m.ofItems ds
    let (b, ds) ← n.ofItems ds
    return ((a, b), ds)
  write p := m.write p.1 ++ n.write p.2

instance : HAppend (Members α) (Members β) (Members (α × β)) := ⟨append⟩

/-- The same fields for a type that is made of them. -/
def iso (m : Members α) (make : α → β) (view : β → α) : Members β where
  Draft := m.Draft
  blank := m.blank
  names := m.names
  take := m.take
  finish draft := (m.finish draft).map make
  ofItems ds := (m.ofItems ds).map fun r => (make r.1, r.2)
  write b := m.write (view b)

/-- Takes the members one by one. A name that is no field is answered by `unknown`. -/
def takeAll (m : Members α) (unknown : String → Except Fault Unit) :
    m.Draft → List (Bytes × Doc) → Except Fault m.Draft
  | draft, [] => .ok draft
  | draft, (key, d) :: ms =>
    match ofRaw key with
    | none => .error .malformed
    | some k =>
      match m.take k d draft with
      | some (.ok draft) => takeAll m unknown draft ms
      | some (.error f) => .error f
      | none =>
        match unknown k with
        | .ok () => takeAll m unknown draft ms
        | .error f => .error f

def read (m : Members α) (unknown : String → Except Fault Unit) : Doc → Except Fault α
  | .object members closed =>
    match m.takeAll unknown m.blank members with
    | .ok draft => if closed then m.finish draft else .error .malformed
    | .error f => .error f
  | .array items closed =>
    match m.ofItems items with
    | .ok (a, rest) => if closed ∧ rest.isEmpty then .ok a else .error .malformed
    | .error f => .error f
  | _ => .error .malformed

/-- The fields of `inner` among those of `own`, in one object inside `depth` containers. Members
that are not of `own` are read as values first; those of `inner` are picked out of them when
the object has closed. An array does not tell whose fields its items are. -/
def flatten (depth : Nat) (inner : Members α) (own : Members β) : Members (α × β) where
  Draft := List (String × Json) × own.Draft
  blank := ([], own.blank)
  names := inner.names ++ own.names
  take k d draft := some <|
    match own.take k d draft.2 with
    | some r => r.map (draft.1, ·)
    | none => (ofDoc (depth + 1) d).map fun v => (draft.1 ++ [(k, v)], draft.2)
  finish draft := do
    let b ← own.finish draft.2
    let a ← inner.takeAll (fun _ => .ok ()) inner.blank (memberDocs draft.1) >>= inner.finish
    return (a, b)
  ofItems _ := .error .malformed
  write p := inner.write p.1 ++ own.write p.2

/-- A record that passes over members it does not know. -/
def shape (m : Members α) : Shape α where
  write a := .object (m.write a)
  read := m.read fun _ => .ok ()

/-- A record that refuses members it does not know. -/
def strictShape (m : Members α) : Shape α where
  write a := .object (m.write a)
  read := m.read fun k => .error (.unknownField k m.names)

/-- The draft `d` becomes `e` when the written members are taken one after another. -/
inductive Takes (m : Members α) : m.Draft → List (String × Json) → m.Draft → Prop where
  | nil (d : m.Draft) : Takes m d [] d
  | cons {d e f : m.Draft} {k : String} {v : Json} {ms : List (String × Json)} :
      m.take k v.toDoc d = some (.ok e) → Takes m e ms f → Takes m d ((k, v) :: ms) f

theorem Takes.trans {m : Members α} {d e f : m.Draft} {xs ys : List (String × Json)}
    (h : m.Takes d xs e) (g : m.Takes e ys f) : m.Takes d (xs ++ ys) f := by
  induction h with
  | nil => exact g
  | cons ht _ ih => exact .cons ht (ih g)

theorem Takes.takeAll {m : Members α} {d e : m.Draft} {ms : List (String × Json)}
    (h : m.Takes d ms e) (unknown : String → Except Fault Unit) :
    m.takeAll unknown d (memberDocs ms) = .ok e := by
  induction h with
  | nil => rfl
  | cons ht _ ih =>
    rw [memberDocs, Members.takeAll, ofRaw_raw]
    simp only [ht]
    exact ih

/-- What is not one of the names is never taken. -/
structure Selective (m : Members α) : Prop where
  take_eq_none : ∀ k d draft, k ∉ m.names → m.take k d draft = none

/-- The written members are fields, and taking them all finishes with the value. -/
structure ReadsBack (m : Members α) (a : α) : Prop where
  names : ∀ e ∈ m.write a, e.1 ∈ m.names
  takes : ∃ d, m.Takes m.blank (m.write a) d ∧ m.finish d = .ok a

theorem selective_field (name : String) (s : Shape α) (p : Presence α) :
    (field name s p).Selective where
  take_eq_none k d draft hk := by
    have : k ≠ name := by simpa [field] using hk
    simp [field, this]

theorem Selective.append {m : Members α} {n : Members β} (hm : m.Selective) (hn : n.Selective) :
    (m.append n).Selective where
  take_eq_none k d draft hk := by
    have hk : k ∉ m.names ++ n.names := hk
    rw [List.mem_append, not_or] at hk
    simp [Members.append, hm.take_eq_none k d draft.1 hk.1, hn.take_eq_none k d draft.2 hk.2]

theorem Selective.iso {m : Members α} (h : m.Selective) (make : α → β) (view : β → α) :
    (m.iso make view).Selective := ⟨h.take_eq_none⟩

theorem readsBack_field {name : String} {s : Shape α} {p : Presence α} {a : α}
    (h : s.ReadsBack a) : (field name s p).ReadsBack a where
  names := by simp [field]
  takes := by
    refine ⟨some a, .cons ?_ (.nil _), rfl⟩
    simp [field, h.read_write, Except.map]

theorem Takes.left {m : Members α} {d e : m.Draft} {ms : List (String × Json)}
    (h : m.Takes d ms e) (n : Members β) (x : n.Draft) :
    (m.append n).Takes (d, x) ms (e, x) := by
  induction h with
  | nil => exact .nil _
  | cons ht _ ih => exact .cons (by simp only [Members.append, ht]; rfl) ih

theorem Takes.right {n : Members β} {d e : n.Draft} {ms : List (String × Json)}
    (h : n.Takes d ms e) {m : Members α} (hm : m.Selective) (x : m.Draft)
    (hf : ∀ e ∈ ms, e.1 ∉ m.names) : (m.append n).Takes (x, d) ms (x, e) := by
  induction h with
  | nil => exact .nil _
  | @cons _ _ _ k v _ ht _ ih =>
    have hk := hm.take_eq_none k v.toDoc x (hf _ (List.mem_cons_self ..))
    exact .cons (by simp only [Members.append, hk, ht]; rfl)
      (ih fun e he => hf e (List.mem_cons_of_mem _ he))

theorem ReadsBack.append {m : Members α} {n : Members β} {p : α × β} (hm : m.ReadsBack p.1)
    (hn : n.ReadsBack p.2) (hs : m.Selective) (hd : ∀ k ∈ n.names, k ∉ m.names) :
    (m.append n).ReadsBack p where
  names e he := by
    change e.1 ∈ m.names ++ n.names
    rcases List.mem_append.mp he with he | he
    · exact List.mem_append_left _ (hm.names e he)
    · exact List.mem_append_right _ (hn.names e he)
  takes := by
    obtain ⟨d, hd₁, hf₁⟩ := hm.takes
    obtain ⟨e, he₁, hg₁⟩ := hn.takes
    refine ⟨(d, e), (hd₁.left n n.blank).trans (he₁.right hs d fun x hx => hd _ (hn.names x hx)), ?_⟩
    simp [Members.append, hf₁, hg₁, bind, Except.bind, pure, Except.pure]

theorem Takes.iso {m : Members α} {d e : m.Draft} {ms : List (String × Json)}
    (h : m.Takes d ms e) (make : α → β) (view : β → α) : (m.iso make view).Takes d ms e := by
  induction h with
  | nil => exact .nil _
  | cons ht _ ih => exact .cons ht ih

theorem ReadsBack.iso {m : Members α} {make : α → β} {view : β → α} {b : β}
    (h : m.ReadsBack (view b)) (hb : make (view b) = b) : (m.iso make view).ReadsBack b where
  names := h.names
  takes := by
    obtain ⟨d, hd, hf⟩ := h.takes
    exact ⟨d, hd.iso make view, by simp [Members.iso, hf, hb, Except.map]⟩

theorem ReadsBack.read {m : Members α} {a : α} (h : m.ReadsBack a)
    (unknown : String → Except Fault Unit) :
    m.read unknown (Json.object (m.write a)).toDoc = .ok a := by
  obtain ⟨d, hd, hf⟩ := h.takes
  simp only [toDoc, Members.read, hd.takeAll unknown, hf, if_true]

theorem ReadsBack.shape {m : Members α} {a : α} (h : m.ReadsBack a) : m.shape.ReadsBack a :=
  ⟨h.read _⟩

theorem ReadsBack.strictShape {m : Members α} {a : α} (h : m.ReadsBack a) :
    m.strictShape.ReadsBack a :=
  ⟨h.read _⟩

end Members
end Appchain.Json
