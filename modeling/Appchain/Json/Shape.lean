import Appchain.Json.Value
import Appchain.Fault

/-!
# Shapes: data as JSON

A `Shape` says how a type is written as JSON and how it is read from a document.
Reading takes the parts in order and answers with the first fault; a container
that the text breaks off is found out when its last part has been read.

`ReadsBack` says that a value is read from the document that it is written as.
-/

namespace Appchain

namespace Json

/-- Containers inside containers, counted from the outermost. -/
def maximumDepth : Nat := 127

mutual

/-- Any value, inside `depth` containers. Of members with one name the last is kept. -/
def ofDoc (depth : Nat) : Doc → Except Fault Json
  | .fault => .error .malformed
  | .null => .ok .null
  | .bool b => .ok (.bool b)
  | .number l =>
    match word? l with
    | some n => .ok (.word n)
    | none => if beyondDouble l then .error .malformed else .ok (.literal l)
  | .text r =>
    match ofRaw r with
    | some s => .ok (.text s)
    | none => .error .malformed
  | .array items closed =>
    if depth < maximumDepth ∧ closed then (itemsOfDocs (depth + 1) items).map .array
    else .error .malformed
  | .object members closed =>
    if depth < maximumDepth ∧ closed then (membersOfDocs (depth + 1) members).map ofMembers
    else .error .malformed

def itemsOfDocs (depth : Nat) : List Doc → Except Fault (List Json)
  | [] => .ok []
  | d :: ds =>
    match ofDoc depth d with
    | .ok v => (itemsOfDocs depth ds).map (v :: ·)
    | .error f => .error f

def membersOfDocs (depth : Nat) : List (Bytes × Doc) → Except Fault (List (String × Json))
  | [] => .ok []
  | (k, d) :: ds =>
    match ofRaw k, ofDoc depth d with
    | some k, .ok v => (membersOfDocs depth ds).map ((k, v) :: ·)
    | _, _ => .error .malformed

end

/-- How a type is written as JSON and read from a document. -/
structure Shape (α : Type) where
  write : α → Json
  read : Doc → Except Fault α

namespace Shape

variable {α β : Type}

/-- Reads a whole text, after which only blanks may follow. -/
def decode (s : Shape α) (text : Bytes) : Except Fault α :=
  let d := Doc.parse text
  match s.read d.1 with
  | .ok a => if d.2 then .ok a else .error .malformed
  | .error f => .error f

def encode (s : Shape α) (a : α) : Bytes := (s.write a).compact

def word : Shape UInt64 where
  write n := .word n
  read
    | .number l =>
      match word? l with
      | some n => .ok n
      | none => .error .malformed
    | _ => .error .malformed

def text : Shape String where
  write s := .text s
  read
    | .text r =>
      match ofRaw r with
      | some s => .ok s
      | none => .error .malformed
    | _ => .error .malformed

def readItems (read : Doc → Except Fault α) : List Doc → Except Fault (List α)
  | [] => .ok []
  | d :: ds =>
    match read d with
    | .ok a => (readItems read ds).map (a :: ·)
    | .error f => .error f

def list (s : Shape α) : Shape (List α) where
  write as := .array (as.map s.write)
  read
    | .array items closed =>
      match readItems s.read items with
      | .ok as => if closed then .ok as else .error .malformed
      | .error f => .error f
    | _ => .error .malformed

/-- Null where there is no value. -/
def optional (s : Shape α) : Shape (Option α) where
  write
    | some a => s.write a
    | none => .null
  read
    | .null => .ok none
    | d => (s.read d).map some

/-- A type that is another one under a condition. -/
def refine (s : Shape α) (view : β → α) (check : α → Except Fault β) : Shape β where
  write b := s.write (view b)
  read d := (s.read d).bind check

/-- Any value, inside `depth` containers. -/
def any (depth : Nat) : Shape Json := ⟨id, ofDoc depth⟩

/-- Reading gives back the value after it has been written. -/
structure ReadsBack (s : Shape α) (a : α) : Prop where
  read_write : s.read (s.write a).toDoc = .ok a

theorem readsBack_word (n : UInt64) : word.ReadsBack n := ⟨by simp [word, toDoc]⟩

theorem readsBack_text (t : String) : text.ReadsBack t := ⟨by simp [text, toDoc]⟩

theorem readItems_map {s : Shape α} {as : List α} (h : ∀ a ∈ as, s.ReadsBack a) :
    readItems s.read ((as.map s.write).map toDoc) = .ok as := by
  induction as with
  | nil => rfl
  | cons a as ih =>
    rw [List.map_cons, List.map_cons, readItems, (h a (by simp)).read_write,
      ih fun b hb => h b (List.mem_cons_of_mem a hb)]
    rfl

theorem ReadsBack.list {s : Shape α} {as : List α} (h : ∀ a ∈ as, s.ReadsBack a) :
    s.list.ReadsBack as where
  read_write := by
    simp only [Shape.list, toDoc, itemDocs_eq_map, readItems_map h]
    rfl

/-- A value that is written as null would be read back as none. -/
theorem ReadsBack.optional {s : Shape α} {a : Option α}
    (h : ∀ x ∈ a, s.ReadsBack x ∧ (s.write x).toDoc ≠ .null) : s.optional.ReadsBack a where
  read_write := by
    cases a with
    | none => rfl
    | some x =>
      obtain ⟨hx, hn⟩ := h x rfl
      simp only [Shape.optional]
      rw [hx.read_write]
      rfl

theorem ReadsBack.refine {s : Shape α} {view : β → α} {check : α → Except Fault β} {b : β}
    (h : s.ReadsBack (view b)) (hc : check (view b) = .ok b) :
    (s.refine view check).ReadsBack b where
  read_write := by
    simp only [Shape.refine, h.read_write]
    exact hc

end Shape
end Json
end Appchain
