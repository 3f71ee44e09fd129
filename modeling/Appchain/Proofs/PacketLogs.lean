import Appchain.Proofs.Exports
import Appchain.Proofs.LoadedGenesis

/-!
# Packet logs

At every point of a run the queue to a chain is a log: the packets that the
document has queued, then those that accepted transactions have sent, in order.
It is read off the stores by its length and index by index, and it is exported
under its chain, or not at all if it is empty.
-/

namespace Appchain

open Outcome

/-- The packets that a document queues under the name of a chain. -/
def Genesis.queueTo (g : Genesis) (chain : String) : List Packet :=
  (g.channels.queues.filter fun q => q.chain = chain).flatMap PacketQueue.packets

/-- The packets to a chain after a document and some transactions. -/
def Genesis.logTo (g : Genesis) (ts : List Transaction) (chain : String) : List Packet :=
  g.queueTo chain ++ packetsTo chain (ts.flatMap Transaction.sends)

/-- If packets are filed under their destinations, the packets to a chain are those that are filed
under it. -/
theorem packetsTo_flatMap {qs : List PacketQueue}
    (h : ∀ q ∈ qs, ∀ p ∈ q.packets, p.destination = q.chain) (chain : String) :
    packetsTo chain (qs.flatMap PacketQueue.packets) =
      (qs.filter fun q => q.chain = chain).flatMap PacketQueue.packets := by
  induction qs with
  | nil => rfl
  | cons q qs ih =>
    obtain ⟨hq, hqs⟩ := List.forall_mem_cons.mp h
    rw [List.flatMap_cons, packetsTo_append, ih hqs]
    by_cases hc : q.chain = chain
    · have hp : packetsTo chain q.packets = q.packets :=
        packetsTo_eq_self fun p hp => (hq p hp).trans hc
      simp [hp, hc]
    · have hp : packetsTo chain q.packets = [] :=
        packetsTo_eq_nil fun p hp he => hc ((hq p hp).symm.trans he)
      simp [hp, hc]

theorem Ledger.packetsTo_sendsWith {g : Genesis} {start : Ledger} (h : ofGenesis g = .ok start)
    (ts : List Transaction) (chain : String) :
    packetsTo chain (g.sendsWith ts) = g.logTo ts chain := by
  have hf := (exists_ofGenesis_iff.mp ⟨start, h⟩).queues
  have hg : packetsTo chain g.sends = g.queueTo chain := packetsTo_flatMap hf.addressed chain
  rw [Genesis.sendsWith, packetsTo_append, hg, Genesis.logTo]

/-- A queue is listed once, or not at all if it is empty. -/
theorem Ledger.Queued.filter_queues {l : Ledger} {ps : List Packet} (hq : l.Queued ps)
    (hc : Countable ps) (chain : String) :
    (l.channels.queues.filter fun q => q.chain = chain) =
      if packetsTo chain ps = [] then [] else [⟨chain, packetsTo chain ps⟩] := by
  split
  · next hempty =>
    refine List.filter_eq_nil_iff.mpr fun q hm => ?_
    obtain ⟨hpackets, hne⟩ := hq.of_mem hc hm
    simp only [decide_eq_true_eq]
    rintro rfl
    exact hne (hpackets.trans hempty)
  · next hne =>
    have hdistinct : (l.channels.queues.filter fun q => q.chain = chain).Nodup :=
      (l.ascending_queues.distinct.imp fun h he => h (congrArg PacketQueue.label he)).filter _
    refine List.perm_singleton.mp ((List.perm_ext_iff_of_nodup hdistinct (by simp)).mpr fun q => ?_)
    simp only [List.mem_filter, decide_eq_true_eq, List.mem_singleton]
    constructor
    · rintro ⟨hm, rfl⟩
      obtain ⟨hpackets, -⟩ := hq.of_mem hc hm
      rw [← hpackets]
    · rintro rfl
      have hl := hq.lengths_eq chain
      rw [if_neg hne] at hl
      refine ⟨List.mem_map.mpr ⟨_, (OrderedMap.mem_entries_iff _ _ _).mpr hl, ?_⟩, rfl⟩
      exact hq.queue_eq (hc chain)

namespace App

variable {a : App} {g : Genesis} {ts : List Transaction}

/-- At every point of a run the queue to a chain is the one of the document, followed by what the
accepted transactions have sent there. Its length and its packets say so, there is no packet at its
length or beyond, and the document that is exported lists it once, or not at all if it is empty.
Lengths are unchecked counters, hence the packets to every chain have to be countable. -/
theorem Run.packet_logs (h : Run g ts a) (hc : Countable (g.sendsWith ts)) :
    (∀ chain, a.HasQueue chain (g.logTo ts chain) ∧
      (g.logTo ts chain).length < UInt64.size ∧
      ∀ i, (g.logTo ts chain).length ≤ i.toNat → a.read (Channels.packet? chain i) = .ok none) ∧
    ∃ document validators exported, a.exportState = .ok (document, validators) ∧
      Genesis.decode document = .ok exported ∧
      ∀ chain, (exported.channels.queues.filter fun q => q.chain = chain) =
        if g.logTo ts chain = [] then [] else [⟨chain, g.logTo ts chain⟩] := by
  obtain ⟨start, l, hs, hts, hh, hl⟩ := h.holds
  have hq : l.Queued (g.sendsWith ts) := .of_run hc hs hts
  have hlog := Ledger.packetsTo_sendsWith hs ts
  constructor
  · intro chain
    have hqueue := hh.hasQueue hq (hc chain)
    have hroom := hc chain
    rw [hlog] at hqueue hroom
    refine ⟨hqueue, hroom, fun i hi => ?_⟩
    rw [hqueue.packet, List.getElem?_eq_none hi]
  · obtain ⟨difficulty, count, hd, hcount, -⟩ := hl.work
    refine ⟨_, _, _, hh.exportState (Ledger.genesis_eq_ok hd hcount),
      Genesis.decode_document (hh.stored.valid.listed _), fun chain => ?_⟩
    rw [← hlog]
    exact hq.filter_queues hc chain

namespace Sample

def parcel (chain : String) : Packet := ⟨holder, friend, .single "pow" 1, "xpx", chain⟩

/-- Three packets to two chains, of which one has a name that begins with that of the other. -/
def dispatch : Transaction where
  messages := [.transfer ⟨parcel "iris"⟩, .transfer ⟨parcel "iri"⟩, .transfer ⟨parcel "iris"⟩]
  fee := ⟨.empty, 0⟩
  signatures := [⟨"07", "aa", 0, 0⟩]
  memo := ""

def dispatchText : Bytes := (dispatch.encode .standard).toOption.getD []

theorem valid_parcel (chain : String) : (parcel chain).coins.Valid :=
  Coins.valid_single (by decide) 1

theorem valid_dispatch : dispatch.Valid where
  fee := Coins.valid_empty
  messages := by
    simp only [dispatch, List.forall_mem_cons, Message.Valid]
    exact ⟨valid_parcel _, valid_parcel _, valid_parcel _, fun _ hm => absurd hm List.not_mem_nil⟩

theorem decode_dispatchText : Transaction.decode .standard dispatchText = .ok dispatch :=
  Transaction.decode_encoded valid_dispatch

theorem execute_dispatch :
    ∃ l n, Ledger.ofGenesis stocked = .ok l ∧ l.execute .deliver dispatch = .ok n :=
  exists_execute (by decide +kernel)

end Sample

/-- Packets to three chains, of which the document has already queued one. -/
theorem Run.packet_logs_dispatch :
    ∃ a, Run Sample.stocked [Sample.dispatch] a ∧
      a.HasQueue "iris" [Sample.parcel "iris", Sample.parcel "iris", Sample.parcel "iris"] ∧
      a.HasQueue "iri" [Sample.parcel "iri"] ∧ a.HasQueue "sky" [] := by
  obtain ⟨l, n, hl, hn⟩ := Sample.execute_dispatch
  obtain ⟨-, a, -, -, -, ha⟩ := exists_run_accepting (Genesis.decode_document Sample.valid_stocked) hl
    Sample.decode_dispatchText hn
  have hc : Countable (Sample.stocked.sendsWith [Sample.dispatch]) := by
    intro chain
    exact Nat.lt_of_le_of_lt (List.length_filter_le ..) (by decide)
  obtain ⟨hqueues, -⟩ := Run.packet_logs ha hc
  exact ⟨a, ha, (hqueues "iris").1, (hqueues "iri").1, (hqueues "sky").1⟩

end App
end Appchain
