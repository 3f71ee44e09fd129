import Appchain.Proofs.LedgerGenesis
import Appchain.Proofs.TransactionRuns

/-!
# Genesis follows the ledger

Loading a genesis document into empty stores leaves the ledger that the document
starts with, or fails as it does; reading the sections back gives the document
that the ledger amounts to.
-/

namespace Appchain

open MultiStore GenesisExec

variable {ε α β : Type} {s : MultiStore} {mode : Mode} {l : Ledger}

theorem run_within (name : String) (x : Exec α) (c : Context) :
    (within name x).run.run c =
      ((x.run.run c).1.mapError (.failed name), (x.run.run c).2) := rfl

theorem Reads.within {x : Exec α} {r : Except TxError α} (h : Reads s mode x l r) (name : String) :
    Reads s mode (within name x) l (r.mapError (.failed name)) := by
  intro c hc
  rw [run_within, h c hc]

theorem Leaves.within {x : Exec α} {n : Ledger} (h : Leaves s mode x l (.ok n)) (name : String) :
    Leaves s mode (GenesisExec.within name x) l (.ok n) := by
  intro c hc
  obtain ⟨a, d, hd, hn⟩ := h c hc
  refine ⟨a, d, ?_, hn⟩
  rw [run_within, hd]
  rfl

theorem Leaves.reject (name : String) (fault : SectionFault) :
    Leaves s mode (GenesisExec.reject name fault : GenesisExec α) l (Ledger.reject name fault) :=
  .throw _

/-- A loop that reads gives all the answers of its steps. -/
theorem Reads.mapM {γ : Type} {f : β → ExecWith ε γ} {name : α → β} {g : α → γ} {as : List α}
    (h : ∀ a ∈ as, Reads s mode (f (name a)) l (.ok (g a))) :
    Reads s mode ((as.map name).mapM f) l (.ok (as.map g)) := by
  induction as with
  | nil => exact .pure _
  | cons a as ih =>
    rw [List.map_cons, List.mapM_cons]
    apply (h a (List.mem_cons_self ..)).bind (g := fun _ => .ok _)
    intro b hb
    cases hb
    apply (ih fun x hx => h x (List.mem_cons_of_mem a hx)).bind (g := fun _ => .ok _)
    intro bs hbs
    cases hbs
    exact .pure _

/-! Loading. -/

/-- The coins that the sections carry may be listed. -/
structure Genesis.Valid (g : Genesis) : Prop where
  fees : g.auth.collectedFees.Valid
  accounts : ∀ a ∈ g.accounts, a.coins.Valid
  packets : ∀ q ∈ g.channels.queues, ∀ p ∈ q.packets, p.coins.Valid

theorem AuthParameters.leaves_load (p : AuthParameters) :
    Leaves s mode p.load l (l.loadParameters p) := by
  unfold load Ledger.loadParameters
  split
  · exact .reject _ _
  · exact (Accounts.leaves_setParameters p).within _

theorem Fees.leaves_load {fees : Coins} (hf : fees.Valid) :
    Leaves s mode (Fees.load fees) l (.ok (l.loadFees fees)) := by
  unfold load Ledger.loadFees
  split
  · exact .pure _
  · exact (Fees.leaves_set hf).within _

namespace GenesisAccount

theorem leaves_loadOne {a : GenesisAccount} (ha : a.coins.Valid) :
    Leaves s mode a.loadOne l (.ok (l.enroll a)) := by
  unfold loadOne
  apply (Accounts.runs_create a.holder).leaves (g := fun _ => .ok (l.enroll a))
  intro x n hx
  cases hx
  apply Accounts.leaves_put
  rw [Account.coins_withCoins]
  exact ha

theorem leaves_loadAll {as : List GenesisAccount} (h : ∀ a ∈ as, a.coins.Valid)
    (seen : List Address) : Leaves s mode (loadAll seen as) l (l.loadAccounts seen as) := by
  induction as generalizing l seen with
  | nil => exact .pure _
  | cons a as ih =>
    unfold loadAll Ledger.loadAccounts
    split
    · exact .reject _ _
    · refine ((leaves_loadOne (h a (List.mem_cons_self ..))).within _).bind
        (g := fun n => n.loadAccounts (a.holder :: seen) as) fun _ n _ => ?_
      exact ih (fun x hx => h x (List.mem_cons_of_mem a hx)) _

end GenesisAccount

theorem Mining.State.leaves_load (n : Mining.State) : Leaves s mode n.load l (l.loadWork n) := by
  unfold load Ledger.loadWork
  split
  · exact .reject _ _
  · exact (Mining.leaves_set n).within _

theorem TrendState.leaves_load (n : TrendState) : Leaves s mode n.load l (l.loadTrend n) := by
  unfold load Ledger.loadTrend
  split
  · exact .reject _ _
  · exact (Trend.leaves_set n.trend).within _

namespace ChannelState

theorem reads_requireChainId (chain : String) :
    Reads s mode (requireChainId chain) l (Ledger.checkChain chain) := by
  unfold requireChainId Ledger.checkChain
  cases checkChainId chain with
  | ok u => exact .pure ()
  | error e => exact .throw _

theorem leaves_loadPacket (chain : String) {p : Packet} (hp : p.coins.Valid) :
    Leaves s mode (loadPacket chain p) l (l.loadPacket chain p) := by
  unfold loadPacket Ledger.loadPacket
  split
  · exact .reject _ _
  · exact ((Channels.leaves_post hp).within _).discard fun _ _ _ => .pure _

theorem leaves_loadQueues {qs : List PacketQueue} (h : ∀ q ∈ qs, ∀ p ∈ q.packets, p.coins.Valid)
    (seen : List String) : Leaves s mode (loadQueues seen qs) l (l.loadQueues seen qs) := by
  induction qs generalizing l seen with
  | nil => exact .pure _
  | cons q qs ih =>
    unfold loadQueues Ledger.loadQueues
    apply (reads_requireChainId q.chain).leaves
    intro _ _
    split
    · exact .reject _ _
    · refine Leaves.bind (.forM (g := Ledger.loadPacket q.chain) fun p hp n => ?_) fun _ n _ => ?_
      · exact leaves_loadPacket q.chain (h q (List.mem_cons_self ..) p hp)
      · exact ih (fun x hx => h x (List.mem_cons_of_mem q hx)) _

theorem leaves_loadSequences (cs : List ChainSequence) (seen : List String) :
    Leaves s mode (loadSequences seen cs) l (l.loadSequences seen cs) := by
  induction cs generalizing l seen with
  | nil => exact .pure _
  | cons c cs ih =>
    unfold loadSequences Ledger.loadSequences
    apply (reads_requireChainId c.chain).leaves
    intro _ _
    split
    · exact .reject _ _
    · refine ((Channels.leaves_setNextSequence _ _).within _).bind
        (g := fun n => n.loadSequences (c.chain :: seen) cs) fun _ n _ => ih _

end ChannelState

theorem StakingState.leaves_loadBond (b : Bond) : Leaves s mode (loadBond b) l (l.loadBond b) := by
  unfold loadBond Ledger.loadBond
  split
  · exact .reject _ _
  · refine ((Staking.reads_get? b.holder).within _).leaves
      (g := fun x => if x.isSome = true then _ else _) fun x _ => ?_
    split
    · exact .reject _ _
    · exact (Staking.leaves_put b).within _

theorem Genesis.leaves_load {g : Genesis} (h : g.Valid) :
    Leaves s mode g.load Ledger.empty (Ledger.ofGenesis g) := by
  unfold load Ledger.ofGenesis
  apply (AuthParameters.leaves_load _).bind
  intro _ l₁ _
  apply (Fees.leaves_load h.fees).bind (g := fun l => _)
  intro _ l₂ h₂
  cases h₂
  apply (GenesisAccount.leaves_loadAll h.accounts []).bind
  intro _ l₃ _
  apply (Mining.State.leaves_load _).bind
  intro _ l₄ _
  apply (TrendState.leaves_load _).bind
  intro _ l₅ _
  unfold ChannelState.load
  rw [bind_assoc]
  apply (ChannelState.leaves_loadQueues h.packets []).bind
  intro _ l₆ _
  apply (ChannelState.leaves_loadSequences _ []).bind
  intro _ l₇ _
  exact .forM fun b _ n => StakingState.leaves_loadBond b

/-! Reading back. -/

theorem Accounts.reads_all :
    Reads s mode Accounts.all l (.ok (l.accounts.entries.map Prod.snd)) := by
  apply Reads.of_valid
  intro hv
  unfold Accounts.all
  refine (Reads.scan (by decide) fun _ ht => ht.accounts.accounts_eq.scan).bind
    (g := fun _ => .ok _) fun es he => ?_
  cases he
  apply Reads.mapM
  intro e he
  have hx : (e.2).coins.Valid := hv.accounts e.1 e.2 ((OrderedMap.mem_entries_iff _ _ _).mp he)
  unfold ofBytes
  rw [Account.ofBytes_bytes hx]
  exact .lift _

theorem Staking.reads_all : Reads s mode Staking.all l (.ok (l.bonds.entries.map Prod.snd)) := by
  unfold Staking.all
  apply (Reads.scan (by decide) fun _ ht => ht.bonds.scan).bind (g := fun _ => .ok _)
  intro es he
  cases he
  exact .mapM fun e _ => .decoded (Bond.portable 0 e.2).binary.decode_write

theorem Staking.reads_validators :
    Reads s mode Staking.validators l (.ok (l.bonds.entries.map fun e => e.2.validator)) := by
  unfold Staking.validators
  have hall : Reads s mode Staking.all l (.ok (l.bonds.entries.map Prod.snd)) := Staking.reads_all
  have h := hall.bind (f := fun bs => pure (bs.map Bond.validator))
    (g := fun bs => .ok (bs.map Bond.validator)) fun _ _ => .pure _
  rwa [show (Except.ok (l.bonds.entries.map Prod.snd) >>= fun bs => Except.ok (bs.map Bond.validator) :
    Except TxError (List Validator)) = .ok _ from rfl, List.map_map] at h

namespace Channels

/-- The chains below a root are the names of the map that is filed there. -/
theorem reads_chains {root : String} {w : UInt64 → Bytes} {m : OrderedMap Label UInt64}
    (h : ∀ t : StoreKey → Tree, l.Stored t → (t .packets).Files (Bytes.ofString root) w m) :
    Reads s mode (chains root) l (.ok (m.entries.map fun e => e.1.text)) := by
  unfold chains
  apply (Reads.scan (by decide) fun t ht => (h t ht).scan).bind (g := fun _ => .ok _)
  intro es he
  cases he
  apply Reads.mapM
  intro e _
  have hd : (Bytes.ofString root ++ FileName.bytes e.1).drop (Bytes.ofString root).length
      = Bytes.ofString e.1.text := List.drop_left ..
  simp only [hd, Bytes.toString?_ofString]
  exact .pure _

theorem reads_packets (chain : String) (n : Nat) (i : UInt64) :
    Reads s mode (packets chain n i) l (.ok (l.packetsFrom chain n i)) := by
  induction n generalizing i with
  | zero => exact .pure _
  | succ n ih =>
    unfold packets
    apply (reads_packet? chain i).bind (g := fun _ => .ok _)
    intro p hp
    cases hp
    apply (ih (i + 1)).bind (g := fun _ => .ok _)
    intro ps hps
    cases hps
    exact .pure _

end Channels

namespace ChannelState

theorem reads_storedQueue (chain : String) :
    Reads s mode (storedQueue chain) l (.ok (l.queue chain)) := by
  unfold storedQueue
  apply (Channels.reads_length chain).bind (g := fun _ => .ok _)
  intro n hn
  cases hn
  apply (Channels.reads_packets chain _ 0).bind (g := fun _ => .ok _)
  intro ps hps
  cases hps
  exact .pure _

theorem reads_storedSequence (e : Label × UInt64) (he : e ∈ l.sequences.entries) :
    Reads s mode (storedSequence e.1.text) l (.ok ⟨e.1.text, e.2⟩) := by
  have hn : l.nextSequence e.1.text = e.2 := by
    unfold Ledger.nextSequence
    rw [(OrderedMap.mem_entries_iff l.sequences e.1 e.2).mp he]
    rfl
  unfold storedSequence
  apply (Channels.reads_nextSequence e.1.text).bind (g := fun _ => .ok _)
  intro n h
  cases h
  rw [hn]
  exact .pure _

theorem reads_stored : Reads s mode stored l (.ok l.channels) := by
  unfold stored
  refine Reads.within (r := .ok l.channels) ?_ _
  apply (Channels.reads_chains fun _ ht => ht.packets.lengths_eq).bind (g := fun _ => .ok _)
  intro names hn
  cases hn
  apply (Reads.mapM fun e _ => reads_storedQueue e.1.text).bind (g := fun _ => .ok _)
  intro queues hq
  cases hq
  apply (Channels.reads_chains fun _ ht => ht.packets.sequences_eq).bind (g := fun _ => .ok _)
  intro names hn
  cases hn
  apply (Reads.mapM fun e he => reads_storedSequence e he).bind (g := fun _ => .ok _)
  intro sequences hs
  cases hs
  exact .pure _

end ChannelState

theorem Mining.State.reads_stored :
    Reads s mode Mining.State.stored l (l.work.mapError (.failed moduleName)) := by
  unfold Mining.State.stored Ledger.work
  refine Reads.within ?_ _
  exact Mining.reads_difficulty.bind fun _ _ => Mining.reads_count.bind fun _ _ => .pure _

theorem GenesisAccount.reads_stored :
    Reads s mode GenesisAccount.stored l
      (.ok (l.accounts.entries.map fun e => GenesisAccount.ofAccount e.2)) := by
  unfold GenesisAccount.stored
  apply (Accounts.reads_all.within _).bind (g := fun _ => .ok _)
  intro as ha
  cases ha
  rw [List.map_map]
  exact .pure _

theorem TrendState.reads_stored :
    Reads s mode TrendState.stored l (.ok ⟨l.trend.getD ""⟩) := by
  unfold TrendState.stored
  apply (Trend.reads_current.within _).bind (g := fun _ => .ok _)
  intro t ht
  cases ht
  exact .pure _

theorem StakingState.reads_stored :
    Reads s mode StakingState.stored l (.ok ⟨l.bonds.entries.map Prod.snd⟩) := by
  unfold StakingState.stored
  apply (Staking.reads_all.within _).bind (g := fun _ => .ok _)
  intro bs hb
  cases hb
  exact .pure _

/-- The sections read back are those of the ledger. -/
theorem Genesis.reads_stored : Reads s mode Genesis.stored l l.genesis := by
  unfold Genesis.stored
  apply (Accounts.reads_parameters.within _).bind (g := fun _ => l.genesis)
  intro p hp
  cases hp
  apply (Fees.reads_collected.within _).bind (g := fun _ => l.genesis)
  intro f hf
  cases hf
  apply GenesisAccount.reads_stored.bind (g := fun _ => l.genesis)
  intro as ha
  cases ha
  unfold Ledger.genesis
  apply Mining.State.reads_stored.bind
  intro mining _
  apply TrendState.reads_stored.bind (g := fun _ => .ok _)
  intro trend ht
  cases ht
  apply ChannelState.reads_stored.bind (g := fun _ => .ok _)
  intro channels hc
  cases hc
  apply StakingState.reads_stored.bind (g := fun _ => .ok _)
  intro staking hs
  cases hs
  exact .pure _

end Appchain
