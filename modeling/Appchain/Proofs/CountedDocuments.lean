import Appchain.Genesis.Document
import Appchain.Proofs.Decoding
import Appchain.Proofs.DocumentSizes

/-!
# Counting what a document lists

A genesis document lists no more accounts, and no more packets to any chain, than
it has bytes. So all that is numbered when a document is loaded can be counted by
a word, as long as its bytes can.
-/

namespace Appchain

open Json

namespace Json

variable {α : Type} {n : Nat}

theorem Doc.hereditary_within (n : Nat) : Doc.Hereditary (Doc.Within n) where
  items h := by
    cases h with
    | array _ hi => exact hi
  members h := by
    cases h with
    | object hm => exact hm

/-- A list is read from an array that has been closed, hence it is no longer than any of them. -/
theorem Shape.yieldsOn_length (s : Shape α) (n : Nat) :
    s.list.YieldsOn (Doc.Within n) fun as => as.length ≤ n where
  of_read d as hd ha := by
    obtain ⟨items, rfl, hr⟩ := list_read_eq_ok ha
    cases hd with
    | array hn _ =>
      rw [length_readItems hr]
      exact hn rfl

end Json

open Members

variable {n : Nat}

theorem PacketQueue.yieldsOn_length :
    PacketQueue.wire.json.YieldsOn (Doc.Within n) fun q => q.packets.length ≤ n := by
  refine YieldsOn.shape (Doc.hereditary_within n)
    (YieldsOn.iso (P := fun p => p.2.length ≤ n) ?_ fun _ h => h)
  exact (yieldsOn_required (Shape.yieldsOn_length _ n)).right (passesOn_field _ _ _)

theorem ChannelState.yieldsOn_length :
    ChannelState.wire.json.YieldsOn (Doc.Within n) fun s => ∀ q ∈ s.queues, q.packets.length ≤ n := by
  refine YieldsOn.shape (Doc.hereditary_within n)
    (YieldsOn.iso (P := fun p => ∀ q ∈ p.1, q.packets.length ≤ n) ?_ fun _ h => h)
  refine (yieldsOn_field (PacketQueue.yieldsOn_length.list (Doc.hereditary_within n))
    fun qs hq => ?_).left _
  cases hq
  exact nofun

namespace Genesis

theorem yieldsOn_accounts : shape.YieldsOn (Doc.Within n) fun g => g.accounts.length ≤ n := by
  refine YieldsOn.strictShape (Doc.hereditary_within n)
    (YieldsOn.iso (P := fun p => p.1.1.1.1.1.length ≤ n) ?_ fun _ h => h)
  exact (((((yieldsOn_required (Shape.yieldsOn_length _ n)).left _).left _).left _).left _).left _

theorem yieldsOn_packets :
    shape.YieldsOn (Doc.Within n) fun g => ∀ q ∈ g.channels.queues, q.packets.length ≤ n := by
  refine YieldsOn.strictShape (Doc.hereditary_within n)
    (YieldsOn.iso (P := fun p => ∀ q ∈ p.1.2.queues, q.packets.length ≤ n) ?_ fun _ h => h)
  refine ((yieldsOn_field ChannelState.yieldsOn_length fun s hs => ?_).right ?_).left _
  · cases hs
    exact nofun
  · exact (((passesOn_field _ _ _).append (passesOn_field _ _ _)).append
      (passesOn_field _ _ _)).append (passesOn_field _ _ _)

variable {document : Bytes} {g : Genesis}

theorem length_accounts_le (h : decode document = .ok g) : g.accounts.length ≤ document.length :=
  yieldsOn_accounts.decode (Doc.within_parse document) (Outcome.mapError_eq_ok.mp h)

theorem length_packets_le (h : decode document = .ok g) :
    ∀ q ∈ g.channels.queues, q.packets.length ≤ document.length :=
  yieldsOn_packets.decode (Doc.within_parse document) (Outcome.mapError_eq_ok.mp h)

end Genesis
end Appchain
