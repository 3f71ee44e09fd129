import Appchain.Fault

/-!
# Layouts: data as bytes

A `Layout` says how a type is written as bytes and how it is read from the front
of a byte string. Words take eight bytes, least significant first; texts, byte
strings and lists are preceded by their length; an optional value is preceded by
a byte that is one if there is a value. Records are their fields one after
another. What follows a value is left to whoever reads on.

A length takes one word in every memory. So that no length is left without an
encoding, the greatest word announces another one, to which it is added.

`ReadsBack` says that a value is read as it was written. It holds of every word,
byte string and text, and of everything that is made of such parts.
-/

namespace Appchain

/-- How a type is written as bytes and read from the front of a byte string. -/
structure Layout (α : Type) where
  write : α → Bytes
  read : Bytes → Except Fault (α × Bytes)

namespace Layout

variable {α β : Type}

/-- Reads a value and ignores what follows it. -/
def decode (l : Layout α) (b : Bytes) : Except Fault α := (l.read b).map Prod.fst

/-- The first `n` bytes and the rest, if there are so many. -/
def split (n : Nat) (b : Bytes) : Except Fault (Bytes × Bytes) :=
  if n ≤ b.length then .ok (b.take n, b.drop n) else .error .malformed

def readWord (b : Bytes) : Except Fault (UInt64 × Bytes) :=
  (split 8 b).map fun r => (UInt64.ofNat (Bytes.littleEndianValue r.1), r.2)

def word : Layout UInt64 := ⟨Bytes.ofUInt64LE, readWord⟩

theorem length_of_split {n : Nat} {b : Bytes} {r : Bytes × Bytes} (h : split n b = .ok r) :
    r.2.length + n = b.length := by
  unfold split at h
  split at h
  · cases h
    simp only [List.length_drop]
    omega
  · cases h

theorem length_of_readWord {b : Bytes} {r : UInt64 × Bytes} (h : readWord b = .ok r) :
    r.2.length < b.length := by
  unfold readWord at h
  cases hs : split 8 b with
  | error f => simp [hs, Except.map] at h
  | ok q =>
    have hq := length_of_split hs
    simp only [hs, Except.map, Except.ok.injEq] at h
    subst h
    simp only
    omega

def lengthBytes (n : Nat) : Bytes :=
  if n < Word.maximum.toNat then Bytes.ofUInt64LE (UInt64.ofNat n)
  else Bytes.ofUInt64LE Word.maximum ++ lengthBytes (n - Word.maximum.toNat)
termination_by n
decreasing_by
  have : 0 < Word.maximum.toNat := by decide
  omega

def readLength (b : Bytes) : Except Fault (Nat × Bytes) :=
  match _h : readWord b with
  | .ok (n, r) =>
    if n = Word.maximum then (readLength r).map fun q => (Word.maximum.toNat + q.1, q.2)
    else .ok (n.toNat, r)
  | .error f => .error f
termination_by b.length
decreasing_by exact length_of_readWord _h

/-- A length and that many bytes. -/
def sized : Layout Bytes where
  write b := lengthBytes b.length ++ b
  read b :=
    match readLength b with
    | .ok (n, b) => split n b
    | .error f => .error f

/-- A type that is another one under a condition. -/
def refine (l : Layout α) (view : β → α) (check : α → Except Fault β) : Layout β where
  write b := l.write (view b)
  read b :=
    match l.read b with
    | .ok (a, r) => (check a).map (·, r)
    | .error f => .error f

def text : Layout String :=
  sized.refine Bytes.ofString fun b =>
    match Bytes.toString? b with
    | some s => .ok s
    | none => .error .malformed

def readItems (read : Bytes → Except Fault (α × Bytes)) :
    Nat → Bytes → Except Fault (List α × Bytes)
  | 0, b => .ok ([], b)
  | n + 1, b =>
    match read b with
    | .ok (a, b) => (readItems read n b).map fun r => (a :: r.1, r.2)
    | .error f => .error f

def list (l : Layout α) : Layout (List α) where
  write as := lengthBytes as.length ++ as.flatMap l.write
  read b :=
    match readLength b with
    | .ok (n, b) => readItems l.read n b
    | .error f => .error f

def optional (l : Layout α) : Layout (Option α) where
  write
    | some a => 1 :: l.write a
    | none => [0]
  read
    | 0 :: b => .ok (none, b)
    | 1 :: b => (l.read b).map fun r => (some r.1, r.2)
    | _ => .error .malformed

/-- Exactly `n` bytes, without their number. -/
def fixed (n : Nat) : Layout Bytes := ⟨id, split n⟩

def append (l : Layout α) (m : Layout β) : Layout (α × β) where
  write p := l.write p.1 ++ m.write p.2
  read b :=
    match l.read b with
    | .ok (a, b) => (m.read b).map fun r => ((a, r.1), r.2)
    | .error f => .error f

instance : HAppend (Layout α) (Layout β) (Layout (α × β)) := ⟨append⟩

def iso (l : Layout α) (make : α → β) (view : β → α) : Layout β where
  write b := l.write (view b)
  read b := (l.read b).map fun r => (make r.1, r.2)

/-- Reading gives back the value after it has been written, and what follows it. -/
structure ReadsBack (l : Layout α) (a : α) : Prop where
  read_write : ∀ rest, l.read (l.write a ++ rest) = .ok (a, rest)

theorem ReadsBack.decode_write {l : Layout α} {a : α} (h : l.ReadsBack a) :
    l.decode (l.write a) = .ok a := by
  have := h.read_write []
  rw [List.append_nil] at this
  simp [decode, this, Except.map]

theorem split_append (b rest : Bytes) : split b.length (b ++ rest) = .ok (b, rest) := by
  simp [split]

theorem readWord_append (n : UInt64) (rest : Bytes) :
    readWord (Bytes.ofUInt64LE n ++ rest) = .ok (n, rest) := by
  have h := split_append (Bytes.ofUInt64LE n) rest
  simp only [Bytes.ofUInt64LE, Bytes.length_littleEndian] at h
  have hv := Bytes.littleEndianValue_littleEndian 8 n.toNat n.toNat_lt_size
  simp [readWord, Bytes.ofUInt64LE, h, hv, Except.map]

theorem readsBack_word (n : UInt64) : word.ReadsBack n := ⟨readWord_append n⟩

theorem readLength_append (n : Nat) (rest : Bytes) :
    readLength (lengthBytes n ++ rest) = .ok (n, rest) := by
  induction n using lengthBytes.induct with
  | case1 n h =>
    have hlt : n < UInt64.size := Nat.lt_trans h (by decide)
    have hn : (UInt64.ofNat n).toNat = n := UInt64.toNat_ofNat_of_lt hlt
    have hne : UInt64.ofNat n ≠ Word.maximum := by
      intro e
      rw [e] at hn
      omega
    rw [lengthBytes, if_pos h, readLength]
    split
    · next m r hm =>
      rw [readWord_append] at hm
      cases hm
      rw [if_neg hne, hn]
    · next f hf =>
      rw [readWord_append] at hf
      cases hf
  | case2 n h ih =>
    rw [lengthBytes, if_neg h, List.append_assoc, readLength]
    split
    · next m r hm =>
      rw [readWord_append] at hm
      cases hm
      rw [if_pos rfl, ih]
      simp only [Except.map, Except.ok.injEq, Prod.mk.injEq, and_true]
      omega
    · next f hf =>
      rw [readWord_append] at hf
      cases hf

theorem readsBack_sized (b : Bytes) : sized.ReadsBack b where
  read_write rest := by
    simp only [sized, List.append_assoc, readLength_append]
    exact split_append b rest

theorem ReadsBack.refine {l : Layout α} {view : β → α} {check : α → Except Fault β} {b : β}
    (h : l.ReadsBack (view b)) (hc : check (view b) = .ok b) :
    (l.refine view check).ReadsBack b where
  read_write rest := by simp [Layout.refine, h.read_write rest, hc, Except.map]

theorem readsBack_text (s : String) : text.ReadsBack s :=
  (readsBack_sized _).refine (by simp)

theorem readItems_flatMap {l : Layout α} {as : List α} (h : ∀ a ∈ as, l.ReadsBack a)
    (rest : Bytes) : readItems l.read as.length (as.flatMap l.write ++ rest) = .ok (as, rest) := by
  induction as with
  | nil => rfl
  | cons a as ih =>
    rw [List.flatMap_cons, List.append_assoc, List.length_cons, readItems,
      (h a (by simp)).read_write]
    simp [ih fun b hb => h b (List.mem_cons_of_mem a hb), Except.map]

theorem ReadsBack.list {l : Layout α} {as : List α} (h : ∀ a ∈ as, l.ReadsBack a) :
    l.list.ReadsBack as where
  read_write rest := by
    simp only [Layout.list, List.append_assoc, readLength_append]
    exact readItems_flatMap h rest

theorem ReadsBack.optional {l : Layout α} {a : Option α} (h : ∀ x ∈ a, l.ReadsBack x) :
    l.optional.ReadsBack a where
  read_write rest := by
    cases a with
    | none => rfl
    | some x => simp [Layout.optional, (h x rfl).read_write rest, Except.map]

theorem readsBack_fixed {n : Nat} {b : Bytes} (h : b.length = n) : (fixed n).ReadsBack b := by
  subst h
  exact ⟨split_append b⟩

theorem ReadsBack.append {l : Layout α} {m : Layout β} {p : α × β} (hl : l.ReadsBack p.1)
    (hm : m.ReadsBack p.2) : (l.append m).ReadsBack p where
  read_write rest := by
    simp only [Layout.append, List.append_assoc, hl.read_write, hm.read_write]
    rfl

theorem ReadsBack.iso {l : Layout α} {make : α → β} {view : β → α} {b : β}
    (h : l.ReadsBack (view b)) (hm : make (view b) = b) : (l.iso make view).ReadsBack b where
  read_write rest := by simp [Layout.iso, h.read_write rest, Except.map, hm]

end Layout
end Appchain
