import Appchain.Genesis.Sections
import Appchain.Proofs.LedgerRuns

/-!
# Operations keep to their context

Whatever becomes of an operation, and wherever it stops, it has changed nothing
but the writes of its context. So the stores of the block are what they were as
long as these writes are not taken over.
-/

namespace Appchain

variable {ε ε' α β : Type}

/-- Two contexts that differ in what they have written at most. -/
structure Context.SameBlock (c d : Context) : Prop where
  store_eq : d.store = c.store
  header_eq : d.header = c.header
  mode_eq : d.mode = c.mode

theorem Context.SameBlock.trans {c d e : Context} (h : c.SameBlock d) (h' : d.SameBlock e) :
    c.SameBlock e :=
  ⟨h'.store_eq.trans h.store_eq, h'.header_eq.trans h.header_eq, h'.mode_eq.trans h.mode_eq⟩

/-- An operation that changes nothing but the writes of its context. -/
def Confined (x : ExecWith ε α) : Prop := ∀ c : Context, c.SameBlock (x.run.run c).2

theorem run_bind_eq_error {x : ExecWith ε α} (f : α → ExecWith ε β) {e : ε} {c d : Context}
    (h : x.run.run c = (.error e, d)) : (x >>= f).run.run c = (.error e, d) := by
  simp only [ExceptT.run_bind, StateT.run_bind]
  rw [h]
  rfl

namespace Confined

theorem pure (a : α) : Confined (pure a : ExecWith ε α) := fun _ => ⟨rfl, rfl, rfl⟩

theorem throw (e : ε) : Confined (throw e : ExecWith ε α) := fun _ => ⟨rfl, rfl, rfl⟩

theorem lift (r : Except TxError α) : Confined (Exec.lift r) := fun _ => ⟨rfl, rfl, rfl⟩

theorem bind {x : ExecWith ε α} {f : α → ExecWith ε β} (hx : Confined x)
    (hf : ∀ a, Confined (f a)) : Confined (x >>= f) := by
  intro c
  have hc := hx c
  cases hr : x.run.run c with
  | mk r d =>
    rw [hr] at hc
    cases r with
    | ok a =>
      rw [run_bind_ok hr]
      exact hc.trans (hf a d)
    | error e =>
      rw [run_bind_eq_error f hr]
      exact hc

theorem map (f : α → β) {x : ExecWith ε α} (hx : Confined x) : Confined (f <$> x) := by
  rw [map_eq_pure_bind]
  exact hx.bind fun a => .pure (f a)

theorem forM {f : α → ExecWith ε PUnit} (h : ∀ a, Confined (f a)) (as : List α) :
    Confined (as.forM f) := by
  induction as with
  | nil => exact .pure _
  | cons a as ih => exact (h a).bind fun _ => ih

theorem adapt {x : ExecWith ε α} (hx : Confined x) (f : ε → ε') : Confined (x.adapt f) := fun c => hx c

end Confined

namespace Exec

theorem confined_view (key : StoreKey) : Confined (view key) := fun _ => ⟨rfl, rfl, rfl⟩

theorem confined_change (key : StoreKey) (f : View → View) : Confined (change key f) := by
  intro c
  rw [run_change]
  split <;> exact ⟨rfl, rfl, rfl⟩

theorem confined_read (key : StoreKey) (k : Bytes) : Confined (read key k) :=
  (confined_view key).bind fun _ => .pure _

theorem confined_decoded (r : Except Fault α) : Confined (decoded r) := .lift _

theorem confined_load (key : StoreKey) (l : Layout α) (k : Bytes) : Confined (load key l k) := by
  apply (confined_read key k).bind
  intro value
  split
  · exact (confined_decoded _).map some
  · exact .pure none

theorem confined_save (key : StoreKey) (l : Layout α) (k : Bytes) (a : α) :
    Confined (save key l k a) := confined_change key _

end Exec

open Exec

/-! Modules. -/

theorem Subspace.confined_set (s : Subspace) (shape : Json.Shape α) (key : String) (a : α) :
    Confined (s.set shape key a) :=
  (confined_change _ _).bind fun _ => confined_change _ _

namespace Accounts

theorem confined_setParameters (p : AuthParameters) : Confined (setParameters p) :=
  (subspace.confined_set _ _ _).bind fun _ => subspace.confined_set _ _ _

theorem confined_put (a : Account) : Confined (put a) :=
  (Confined.lift _).bind fun _ => confined_change _ _

theorem confined_create (a : Address) : Confined (create a) := by
  refine Confined.bind ?_ fun _ => .pure _
  exact (confined_load _ _ _).bind fun _ => (confined_save _ _ _ _).bind fun _ => .pure _

end Accounts

namespace Channels

theorem confined_post (p : Packet) : Confined (post p) := by
  apply Confined.bind
  · exact (confined_load _ _ _).bind fun _ => .pure _
  · intro index
    exact (confined_save _ _ _ _).bind fun _ => (confined_save _ _ _ _).bind fun _ => .pure _

end Channels

/-! Sections. -/

open GenesisExec

theorem AuthParameters.confined_load (p : AuthParameters) : Confined p.load := by
  unfold load
  split
  · exact .throw _
  · exact (Accounts.confined_setParameters p).adapt _

theorem Fees.confined_load (fees : Coins) : Confined (Fees.load fees) := by
  unfold load
  split
  · exact .pure _
  · exact (confined_save _ _ _ _).adapt _

theorem GenesisAccount.confined_loadAll (seen : List Address) (as : List GenesisAccount) :
    Confined (loadAll seen as) := by
  induction as generalizing seen with
  | nil => exact .pure _
  | cons a as ih =>
    unfold loadAll
    split
    · exact .throw _
    · refine Confined.bind (.adapt ?_ _) fun _ => ih _
      exact (Accounts.confined_create _).bind fun x => Accounts.confined_put _

theorem Mining.State.confined_load (s : Mining.State) : Confined s.load := by
  unfold load
  split
  · exact .throw _
  · exact ((confined_save _ _ _ _).bind fun _ => confined_save _ _ _ _).adapt _

theorem TrendState.confined_load (s : TrendState) : Confined s.load := by
  unfold load
  split
  · exact .throw _
  · exact (confined_change _ _).adapt _

namespace ChannelState

theorem confined_requireChainId (chain : String) : Confined (requireChainId chain) := by
  unfold requireChainId
  split
  · exact .pure _
  · exact .throw _

theorem confined_loadPacket (queue : String) (p : Packet) : Confined (loadPacket queue p) := by
  unfold loadPacket
  split
  · exact .throw _
  · exact ((Channels.confined_post p).adapt _).bind fun _ => .pure _

theorem confined_loadQueues (seen : List String) (qs : List PacketQueue) :
    Confined (loadQueues seen qs) := by
  induction qs generalizing seen with
  | nil => exact .pure _
  | cons q qs ih =>
    apply (confined_requireChainId q.chain).bind
    intro _
    split
    · exact .throw _
    · exact (Confined.forM (confined_loadPacket q.chain) q.packets).bind fun _ => ih _

theorem confined_loadSequences (seen : List String) (cs : List ChainSequence) :
    Confined (loadSequences seen cs) := by
  induction cs generalizing seen with
  | nil => exact .pure _
  | cons c cs ih =>
    apply (confined_requireChainId c.chain).bind
    intro _
    split
    · exact .throw _
    · exact ((confined_save _ _ _ _).adapt _).bind fun _ => ih _

theorem confined_load (s : ChannelState) : Confined s.load :=
  (confined_loadQueues _ _).bind fun _ => confined_loadSequences _ _

end ChannelState

theorem StakingState.confined_loadBond (b : Bond) : Confined (loadBond b) := by
  unfold loadBond
  split
  · exact .throw _
  · apply ((confined_load _ _ _).adapt _).bind
    intro known
    split
    · exact .throw _
    · exact (confined_save _ _ _ _).adapt _

namespace Genesis

theorem confined_load (g : Genesis) : Confined g.load :=
  g.auth.parameters.confined_load.bind fun _ => (Fees.confined_load _).bind fun _ =>
    (GenesisAccount.confined_loadAll _ _).bind fun _ => g.mining.confined_load.bind fun _ =>
      g.trend.confined_load.bind fun _ => g.channels.confined_load.bind fun _ =>
        .forM StakingState.confined_loadBond _

/-- Loading a document keeps to its context, whichever section is not acceptable. -/
theorem confined_take (document : Bytes) : Confined (take document) := by
  unfold take
  split
  · next g _ => exact g.confined_load.bind fun _ => .pure _
  · exact .throw _

end Genesis
end Appchain
