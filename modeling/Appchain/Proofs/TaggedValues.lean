import Appchain.Proofs.Outcomes
import Appchain.Proofs.RoundTrips
import Appchain.TypeRegistry

/-!
# Tagged values read back

A tagged value is recovered if the reader that belongs to its tag reads both of its
encodings. A registry that knows the tag therefore reads from an envelope, or from
tagged bytes, what it has put there, shape included.
-/

namespace Appchain

open Json Outcome

namespace Tagged

variable {α β : Type} [Tagged β]

/-- Tagged values have at most so many containers inside one another. -/
def maximumNesting : Nat := 4

/-- A value that the reader for its tag reads from both encodings, of which the JSON may have been
sorted. -/
structure Recovers (b : β) : Prop where
  reader : ∃ r : Reader β, reader? (tag b) = some r ∧
    r.ofDoc (body b).json.sorted.toDoc = .ok b ∧ r.ofBytes (body b).bytes = .ok b
  isData : (body b).json.isData = true
  nesting_le : (body b).json.nesting ≤ maximumNesting

theorem Recovers.of_wire {w : Wire α} {make : α → β} {a : α}
    (hr : reader? (tag (make a)) = some (w.reader make)) (hb : body (make a) = w.body a)
    (h : w.Portable maximumNesting a) : Recovers (make a) where
  reader := by
    have hread : w.json.read (w.json.write a).sorted.toDoc = .ok a := h.json.sorting.read_write
    refine ⟨_, hr, ?_, ?_⟩
    · rw [hb]
      simp [Wire.reader, Wire.body, hread, Except.map]
    · rw [hb]
      simp [Wire.reader, Wire.body, h.binary.decode_write, Except.map]
  isData := hb ▸ h.json.isData
  nesting_le := hb ▸ h.json.nesting_le

end Tagged

open Tagged (Recovers)

theorem taggedBytes_decode_write (tag : String) (payload : Bytes) :
    taggedBytes.decode (taggedBytes.write (tag, payload)) = .ok (tag, payload) :=
  ((Layout.readsBack_text _).append (Layout.readsBack_sized _)).decode_write

namespace TypeRegistry

variable {α : Type} [Tagged α] {r : TypeRegistry} {a : α} {e : Envelope} {tag : String} {b : Bytes}

/-- A value with its tag, its members sorted. -/
def envelopeOf (a : α) : Envelope := ⟨Tagged.tag a, (Tagged.body a).json.sorted⟩

theorem ensure_eq_ok_iff {interface : String} :
    r.ensure interface tag = .ok () ↔ r.isRegistered interface tag = true := by
  unfold ensure
  split
  · next h => exact iff_of_true rfl h
  · next h => exact iff_of_false nofun h

theorem ensure_eq_error {interface : String} (h : r.isRegistered interface tag = false) :
    r.ensure interface tag = .error (.unknownType interface tag) := if_neg (by simp [h])

theorem body_eq_ok {body : Body} : r.body a = .ok body ↔
    r.isRegistered (Tagged.interface α) (Tagged.tag a) = true ∧ body = Tagged.body a := by
  unfold TypeRegistry.body
  split
  · next h => simp [h, eq_comm]
  · next h => simp [h]

theorem toEnvelope_eq_ok : r.toEnvelope a = .ok e ↔
    r.isRegistered (Tagged.interface α) (Tagged.tag a) = true ∧ e = envelopeOf a := by
  simp only [toEnvelope, bind_eq_ok, body_eq_ok, pure_eq_ok, and_assoc, exists_and_left,
    exists_eq_left]
  rfl

theorem toBytes_eq_ok : r.toBytes a = .ok b ↔
    r.isRegistered (Tagged.interface α) (Tagged.tag a) = true ∧
      b = taggedBytes.write (Tagged.tag a, (Tagged.body a).bytes) := by
  simp only [toBytes, bind_eq_ok, body_eq_ok, pure_eq_ok, and_assoc, exists_and_left, exists_eq_left]

theorem reader_eq_ok {reader : Reader α} : r.reader tag = .ok reader ↔
    r.isRegistered (Tagged.interface α) tag = true ∧ Tagged.reader? tag = some reader := by
  unfold TypeRegistry.reader
  rw [check_bind_eq_ok, ensure_eq_ok_iff]
  cases Tagged.reader? (α := α) tag with
  | none => simp
  | some k => simp

theorem ofEnvelope_eq_ok : r.ofEnvelope e = .ok a ↔
    r.isRegistered (Tagged.interface α) e.tag = true ∧ ∃ reader : Reader α,
      Tagged.reader? e.tag = some reader ∧ reader.ofDoc e.value.toDoc = .ok a := by
  simp only [ofEnvelope, bind_eq_ok, reader_eq_ok, mapError_eq_ok, and_assoc, exists_and_left]

theorem ofBytes_eq_ok : r.ofBytes b = .ok a ↔ ∃ tag payload,
    taggedBytes.decode b = .ok (tag, payload) ∧
      r.isRegistered (Tagged.interface α) tag = true ∧ ∃ reader : Reader α,
        Tagged.reader? tag = some reader ∧ reader.ofBytes payload = .ok a := by
  simp only [ofBytes, bind_eq_ok, reader_eq_ok, mapError_eq_ok, and_assoc, exists_and_left,
    Prod.exists]

section Registered

variable (hr : r.isRegistered (Tagged.interface α) (Tagged.tag a) = true)
include hr

theorem toEnvelope_eq : r.toEnvelope a = .ok (envelopeOf a) := toEnvelope_eq_ok.mpr ⟨hr, rfl⟩

theorem toBytes_eq : r.toBytes a = .ok (taggedBytes.write (Tagged.tag a, (Tagged.body a).bytes)) :=
  toBytes_eq_ok.mpr ⟨hr, rfl⟩

/-- A value is taken out of its envelope as it was. -/
theorem ofEnvelope_envelopeOf (h : Recovers a) : r.ofEnvelope (envelopeOf a) = .ok a := by
  obtain ⟨reader, hreader, hdoc, -⟩ := h.reader
  exact ofEnvelope_eq_ok.mpr ⟨hr, reader, hreader, hdoc⟩

/-- A value is read from its tagged bytes as it was. -/
theorem ofBytes_write (h : Recovers a) :
    r.ofBytes (taggedBytes.write (Tagged.tag a, (Tagged.body a).bytes)) = .ok a := by
  obtain ⟨reader, hreader, -, hbytes⟩ := h.reader
  exact ofBytes_eq_ok.mpr ⟨_, _, taggedBytes_decode_write .., hr, reader, hreader, hbytes⟩

end Registered
end TypeRegistry
end Appchain
