import Appchain.Module.Parameters
import Appchain.Proofs.WrittenContexts

/-!
# Where parameters are kept

A parameter is kept under the name of its subspace and its key, with a slash between
them. Names and keys may have slashes too, so what is joined does not say where the
name ends. Two parameters of different subspaces are in one place exactly when the one
name is the other one with more after a slash, and the key of the other has what is
more. Parameters in different places do not disturb each other in any context.
-/

namespace Appchain

/-- What is joined by slashes is taken apart in one way, up to the slash that is chosen. -/
theorem append_slash_eq_iff {a b x y : String} : a ++ "/" ++ x = b ++ "/" ++ y ↔
    (a = b ∧ x = y) ∨ (∃ rest, b = a ++ "/" ++ rest ∧ x = rest ++ "/" ++ y) ∨
      ∃ rest, a = b ++ "/" ++ rest ∧ y = rest ++ "/" ++ x := by
  -- A longer first part has the slash, and after it what the other second part starts with.
  have split {a b x y : List Char} (h : ∃ r, b = a ++ r ∧ '/' :: x = r ++ '/' :: y) :
      (a = b ∧ x = y) ∨ ∃ rest, b = a ++ '/' :: rest ∧ x = rest ++ '/' :: y := by
    obtain ⟨r, hb, hx⟩ := h
    cases r with
    | nil => exact .inl ⟨by rw [hb, List.append_nil], (List.cons.inj hx).2⟩
    | cons e rest =>
      obtain ⟨rfl, hrest⟩ := List.cons.inj hx
      exact .inr ⟨rest, hb, hrest⟩
  simp only [← String.toList_inj, String.toList_append, List.append_assoc]
  constructor
  · intro h
    rcases List.append_eq_append_iff.mp h with h | h
    · rcases split h with h | ⟨rest, hb, hx⟩
      · exact .inl h
      · exact .inr (.inl ⟨.ofList rest, by simpa using hb, by simpa using hx⟩)
    · rcases split h with ⟨hb, hx⟩ | ⟨rest, hb, hx⟩
      · exact .inl ⟨hb.symm, hx.symm⟩
      · exact .inr (.inr ⟨.ofList rest, by simpa using hb, by simpa using hx⟩)
  · rintro (⟨ha, hx⟩ | ⟨rest, hb, hx⟩ | ⟨rest, ha, hy⟩)
    · rw [ha, hx]
    · rw [hb, hx, List.append_assoc, List.append_assoc]
    · rw [ha, hy, List.append_assoc, List.append_assoc]

namespace Subspace

variable {s t : Subspace} {k j : String}

/-- Where a parameter is kept. -/
def path (s : Subspace) (k : String) : Bytes := s.root ++ Bytes.ofString k

/-- The key `k` of `s` has the end of the name of `t`, and then the key `j`. -/
def Reaches (s : Subspace) (k : String) (t : Subspace) (j : String) : Prop :=
  ∃ rest, t.name = s.name ++ "/" ++ rest ∧ k = rest ++ "/" ++ j

/-- The name is the other one with more after a slash. -/
def IsWithin (t s : Subspace) : Prop := ∃ rest, t.name = s.name ++ "/" ++ rest

/-- The places of parameters are told apart but for keys that reach into another subspace. -/
theorem path_eq_path_iff : s.path k = t.path j ↔
    (s.name = t.name ∧ k = j) ∨ s.Reaches k t j ∨ t.Reaches j s k := by
  have joined (s : Subspace) (k : String) : s.path k = Bytes.ofString (s.name ++ "/" ++ k) :=
    (Bytes.ofString_append _ k).symm
  rw [joined, joined]
  exact ⟨fun h => append_slash_eq_iff.mp (Bytes.ofString_injective h),
    fun h => congrArg Bytes.ofString (append_slash_eq_iff.mpr h)⟩

/-- Within a subspace, keys tell the places apart. -/
theorem path_inj : s.path k = s.path j ↔ k = j :=
  ⟨fun h => Bytes.ofString_injective (List.append_cancel_left h), congrArg s.path⟩

/-- Subspaces of different names have a place in common exactly when one is within the other. -/
theorem exists_path_eq_iff (hne : s.name ≠ t.name) :
    (∃ k j, s.path k = t.path j) ↔ s.IsWithin t ∨ t.IsWithin s := by
  constructor
  · rintro ⟨k, j, h⟩
    rcases path_eq_path_iff.mp h with ⟨hst, -⟩ | ⟨rest, hn, -⟩ | ⟨rest, hn, -⟩
    · exact absurd hst hne
    · exact .inr ⟨rest, hn⟩
    · exact .inl ⟨rest, hn⟩
  · rintro (⟨rest, hn⟩ | ⟨rest, hn⟩)
    · exact ⟨"", rest ++ "/" ++ "", path_eq_path_iff.mpr (.inr (.inr ⟨rest, hn, rfl⟩))⟩
    · exact ⟨rest ++ "/" ++ "", "", path_eq_path_iff.mpr (.inr (.inl ⟨rest, hn, rfl⟩))⟩

end Subspace

/-- A store that is not open has the same error in all contexts of a block. -/
theorem Context.view_eq_error_of_not_opens {c : Context} {key : StoreKey} (h : ¬c.Opens key) :
    ∃ e, ∀ d : Context, d.store = c.store → d.view key = .error e := by
  cases hs : c.store.view key with
  | ok v => exact absurd ⟨v, hs⟩ h
  | error e =>
    refine ⟨e, fun d hd => ?_⟩
    unfold Context.view
    rw [hd, hs]
    rfl

namespace Exec

variable {c : Context} {key other : StoreKey} {k j value : Bytes}

/-- Whether it succeeds or not, a write leaves what is read under other keys. -/
theorem read_after_write_of_ne (h : j ≠ k) :
    ((read other j).run.run ((write key k value).run.run c).2).1 = ((read other j).run.run c).1 := by
  by_cases hk : c.Opens key
  · rw [run_write_of_opens hk]
    by_cases ho : c.Opens other
    · rw [run_read_of_opens (ho.wrote key k value), run_read_of_opens ho,
        Context.get?_contents_wrote_of_ne c h]
    · obtain ⟨e, he⟩ := Context.view_eq_error_of_not_opens ho
      rw [run_read, run_read, he (c.wrote key k value) rfl, he c rfl]
  · obtain ⟨e, he⟩ := Context.view_eq_error_of_not_opens hk
    unfold write
    rw [run_change, he c rfl]

end Exec

/-- What the text of a parameter is read as. -/
def Json.Shape.readAs {α : Type} (shape : Json.Shape α) (text : Option Bytes) :
    Except TxError (Option α) :=
  (text.mapM shape.decode).mapError fun f => .codec (.decode f)

namespace Subspace

open Exec

variable {α β : Type} {s t : Subspace} {k j : String} {c : Context}

/-- Setting a parameter is a write to both stores, under its path. -/
theorem set_eq_writes (s : Subspace) (shape : Json.Shape α) (k : String) (a : α) :
    s.set shape k a = (do
      write .parameters (s.path k) (shape.encode a)
      write .changedParameters (s.path k) []) := rfl

theorem run_get?_eq_read (s : Subspace) (shape : Json.Shape α) (k : String) (c : Context) :
    (s.get? shape k).run.run c =
      (((read .parameters (s.path k)).run.run c).1.bind shape.readAs, c) := by
  have hview := run_view .parameters c
  unfold get?
  rw [run_read]
  cases hv : c.view .parameters with
  | error e =>
    rw [hv] at hview
    rw [run_bind_eq_error _ hview]
    rfl
  | ok v =>
    rw [hv] at hview
    have hget : (s.partition v).get (Bytes.ofString k) = v.get (s.path k) := rfl
    rw [run_bind_ok hview, hget]
    change _ = (shape.readAs (v.get (s.path k)), c)
    cases v.get (s.path k) with
    | none => rfl
    | some text =>
      simp only [Json.Shape.readAs, Option.mapM_some, decoded]
      cases shape.decode text <;> rfl

theorem run_isChanged_eq_read (s : Subspace) (k : String) (c : Context) :
    (s.isChanged k).run.run c =
      (((read .changedParameters (s.path k)).run.run c).1.map Option.isSome, c) := by
  unfold isChanged
  simp only [ExceptT.run_bind, StateT.run_bind, run_view, run_read]
  cases c.view .changedParameters <;> rfl

/-- Whether it succeeds or not, setting a parameter leaves what is read in other places. -/
theorem read_after_set_of_ne {key : StoreKey} {p : Bytes} (h : p ≠ s.path k)
    (shape : Json.Shape α) (a : α) :
    ((read key p).run.run ((s.set shape k a).run.run c).2).1 = ((read key p).run.run c).1 := by
  rw [set_eq_writes]
  have hfirst : ((read key p).run.run
      ((write .parameters (s.path k) (shape.encode a)).run.run c).2).1 =
        ((read key p).run.run c).1 := read_after_write_of_ne h
  rcases hr : (write .parameters (s.path k) (shape.encode a)).run.run c with ⟨_ | _, d⟩ <;>
    rw [hr] at hfirst
  · rwa [run_bind_eq_error _ hr]
  · rw [run_bind_ok hr, read_after_write_of_ne h]
    exact hfirst

/-- In every context, a parameter and its mark are as they were after a parameter elsewhere has
been set. -/
theorem answers_after_set_of_ne (h : t.path j ≠ s.path k) (shape : Json.Shape α) (a : α)
    (other : Json.Shape β) (c : Context) :
    ((t.get? other j).run.run ((s.set shape k a).run.run c).2).1 = ((t.get? other j).run.run c).1 ∧
      ((t.isChanged j).run.run ((s.set shape k a).run.run c).2).1 =
        ((t.isChanged j).run.run c).1 := by
  simp only [run_get?_eq_read, run_isChanged_eq_read, read_after_set_of_ne h, and_self]

end Subspace
end Appchain
