import Appchain.Proofs.LoadedGenesis
import Appchain.Proofs.PacketLogs
import Appchain.Proofs.Stages

/-!
# Arrivals

Packets from a chain are received once each and in order: their sequences count
on from the one that the document gives the chain, and the stored sequence is
the next one. Sequences are unchecked counters, so this holds up to a packet with
the greatest word.
-/

namespace Appchain

open Outcome

/-- The packets from a chain that a message receives. -/
def Message.receipts (chain : String) : Message → List Receive
  | .receive m => if m.packet.source = chain then [m] else []
  | _ => []

theorem Message.receipts_eq (chain : String) (m : Message) :
    (∃ r, m = .receive r ∧ r.packet.source = chain ∧ m.receipts chain = [r]) ∨ m.receipts chain = [] := by
  cases m with
  | receive r =>
    by_cases hr : r.packet.source = chain
    · exact .inl ⟨r, rfl, hr, if_pos hr⟩
    · exact .inr (if_neg hr)
  | _ => exact .inr rfl

def Transaction.receipts (chain : String) (t : Transaction) : List Receive :=
  t.messages.flatMap (Message.receipts chain)

/-- The packets from a chain that some transactions receive, in order. -/
def receiptsFrom (chain : String) (ts : List Transaction) : List Receive :=
  ts.flatMap (Transaction.receipts chain)

/-- The sequence that a document gives to the next packet from a chain. -/
def Genesis.sequenceFrom (g : Genesis) (chain : String) : UInt64 :=
  ((g.channels.sequences.find? fun c => c.chain = chain).map ChainSequence.sequence).getD 0

/-- No packet has the greatest sequence, after which the count would start again. -/
def Bounded (rs : List Receive) : Prop := ∀ m ∈ rs, m.sequence ≠ Word.maximum

namespace Ledger

variable {l n : Ledger} {chain : String} {s : Nat} {rs : List Receive}

/-- The packets have been received one after another from a sequence on, and the next one is due. -/
structure Received (l : Ledger) (chain : String) (s : Nat) (rs : List Receive) : Prop where
  next : (l.nextSequence chain).toNat = s + rs.length
  order : rs.map (fun m => m.sequence.toNat) = List.range' s rs.length

theorem nextSequence_setSequence (l : Ledger) (source chain : String) (m : UInt64) :
    (l.setSequence source m).nextSequence chain = if chain = source then m else l.nextSequence chain := by
  unfold nextSequence setSequence
  rw [OrderedMap.get?_insert]
  by_cases h : chain = source
  · simp [h]
  · simp [h]

/-- A message that receives nothing from a chain leaves its sequence alone. -/
theorem nextSequence_of_apply {mode : Mode} {m : Message} (hm : m.receipts chain = [])
    (h : l.apply mode m = .ok n) : n.nextSequence chain = l.nextSequence chain := by
  obtain ⟨k, hk, hr⟩ := exists_records h
  rw [← nextSequence_of_frame hk]
  cases m with
  | receive m =>
    obtain ⟨-, rfl⟩ := hr
    have hne : chain ≠ m.packet.source := by
      rintro rfl
      simp [Message.receipts] at hm
    rw [nextSequence_setSequence, if_neg hne]
  | bond m =>
    obtain ⟨power, -, rfl⟩ := hr
    rfl
  | send m | transfer m | unbond m | mine m | setTrend m | quiz m =>
    cases hr
    rfl

namespace Received

theorem of_eq (h : l.Received chain s rs) (hn : n.nextSequence chain = l.nextSequence chain) :
    n.Received chain s rs where
  next := hn ▸ h.next
  order := h.order

/-- A packet is received if it is due. -/
theorem receive (h : l.Received chain s rs) {mode : Mode} {m : Receive}
    (hs : m.packet.source = chain) (hm : m.sequence ≠ Word.maximum)
    (ha : l.apply mode (.receive m) = .ok n) : n.Received chain s (rs ++ [m]) := by
  obtain ⟨k, hk, hdue, rfl⟩ := exists_records ha
  rw [nextSequence_of_frame hk, hs] at hdue
  have hsequence : m.sequence.toNat = s + rs.length := by rw [hdue, h.next]
  constructor
  · rw [hs, nextSequence_setSequence, if_pos rfl, Word.toNat_add_one (Word.toNat_add_one_lt_size hm),
      hsequence, List.length_append, List.length_singleton, Nat.add_assoc]
  · rw [List.map_append, List.length_append, List.length_singleton, List.range'_concat, h.order,
      Nat.one_mul, ← hsequence]
    rfl

theorem apply (h : l.Received chain s rs) {mode : Mode} {m : Message}
    (hb : Bounded (rs ++ m.receipts chain)) (ha : l.apply mode m = .ok n) :
    n.Received chain s (rs ++ m.receipts chain) := by
  rcases m.receipts_eq chain with ⟨r, rfl, hr, he⟩ | he
  · rw [he] at hb ⊢
    exact h.receive hr (hb r (List.mem_append_right _ (List.mem_singleton.mpr rfl))) ha
  · rw [he, List.append_nil]
    exact h.of_eq (nextSequence_of_apply he ha)

theorem execute (h : l.Received chain s rs) {mode : Mode} {t : Transaction}
    (hb : Bounded (rs ++ t.receipts chain)) (he : l.execute mode t = .ok n) :
    n.Received chain s (rs ++ t.receipts chain) := by
  obtain ⟨-, k, hk, hn⟩ := execute_eq_ok.mp he
  have hscreened : k.Received chain s rs := h.of_eq (by rw [screen_frame hk]; rfl)
  refine foldlM_records (P := fun l rs => Bounded rs → l.Received chain s rs)
    (fun _ _ _ _ _ hr ha hb => ?_) (fun _ => hscreened) hn hb
  exact (hr (List.forall_mem_append.mp hb).1).apply hb ha

end Received

/-- A chain starts with the sequences of its document. -/
theorem nextSequence_of_genesis {g : Genesis} (h : ofGenesis g = .ok n) (chain : String) :
    n.nextSequence chain = g.sequenceFrom chain := by
  obtain ⟨l₁, l₂, l₃, h⟩ := ofGenesis_eq_ok.mp h
  unfold Genesis.sequenceFrom
  cases hc : g.channels.sequences.find? fun c => c.chain = chain with
  | none =>
    have hne : ∀ c ∈ g.channels.sequences, c.chain ≠ chain := by simpa using hc
    rw [h.nextSequence_of_ne hne]
    rfl
  | some c =>
    obtain rfl : c.chain = chain := by simpa using List.find?_some hc
    rw [h.nextSequence_of_mem (List.mem_of_find?_eq_some hc)]
    rfl

theorem Received.of_run {g : Genesis} {ts : List Transaction} {start : Ledger} (chain : String)
    (hb : Bounded (receiptsFrom chain ts)) (hs : ofGenesis g = .ok start)
    (h : ts.foldlM (fun l t => l.execute .deliver t) start = .ok l) :
    l.Received chain (g.sequenceFrom chain).toNat (receiptsFrom chain ts) := by
  have hstart : start.Received chain (g.sequenceFrom chain).toNat [] :=
    ⟨by rw [nextSequence_of_genesis hs]; rfl, rfl⟩
  have hr : Bounded ([] ++ ts.flatMap (Transaction.receipts chain)) →
      l.Received chain (g.sequenceFrom chain).toNat ([] ++ ts.flatMap (Transaction.receipts chain)) := by
    refine foldlM_records
      (P := fun l rs => Bounded rs → l.Received chain (g.sequenceFrom chain).toNat rs)
      (fun _ _ _ _ _ hr ha hb => ?_) (fun _ => hstart) h
    exact (hr (List.forall_mem_append.mp hb).1).execute hb ha
  exact hr hb

end Ledger

namespace App

variable {a : App} {g : Genesis} {ts : List Transaction}

/-- The packets from a chain that a run has received have the sequences from the one of the document
on, without gap or repetition, and the next one is stored. Whenever a further transaction is
accepted, each packet that it receives is paid to its recipient, and a message that receives nothing
from a chain leaves the sequence of the chain alone. -/
theorem Run.arrivals (h : Run g ts a) (chain : String) (hb : Bounded (receiptsFrom chain ts)) :
    (receiptsFrom chain ts).map (fun m => m.sequence.toNat) =
        List.range' (g.sequenceFrom chain).toNat (receiptsFrom chain ts).length ∧
      (∃ next, a.read (Channels.nextSequence chain) = .ok next ∧
        next.toNat = (g.sequenceFrom chain).toNat + (receiptsFrom chain ts).length) ∧
      ∀ text t, a.accepted (.deliver text) = some t → a.Carries text t fun m c d =>
        (∀ r, m = .receive r → Context.Gains r.packet.recipient r.packet.coins c d) ∧
        (m.receipts chain = [] → ∃ next, c.read (Channels.nextSequence chain) = .ok next ∧
          d.read (Channels.nextSequence chain) = .ok next) := by
  obtain ⟨start, l, hs, hts, hh, hl⟩ := h.holds
  have hr := Ledger.Received.of_run chain hb hs hts
  refine ⟨hr.order, ⟨_, hh.read_eq (Channels.reads_nextSequence chain), hr.next⟩, fun text t ht => ?_⟩
  refine hh.carries hl ht fun k n m c d hk ha hc hd => ⟨?_, fun hm => ?_⟩
  · rintro r rfl
    obtain ⟨-, k', hcredit, rfl⟩ := Ledger.receive_eq_ok.mp ha
    exact hc.gains hd fun denom q => Ledger.balance_credit hk.accounts hcredit denom q
  · refine ⟨_, hc.read_eq (Channels.reads_nextSequence chain), ?_⟩
    rw [hd.read_eq (Channels.reads_nextSequence chain), Ledger.nextSequence_of_apply hm ha]

namespace Sample

def shipment (chain : String) : Packet := ⟨friend, holder, .single "pow" 1, chain, "xpx"⟩

/-- Three packets from two chains, and one that leaves in between. -/
def arrival : Transaction where
  messages := [.receive ⟨shipment "iris", holder, 3⟩, .receive ⟨shipment "sky", holder, 0⟩,
    .transfer ⟨parcel "iris"⟩, .receive ⟨shipment "iris", holder, 4⟩]
  fee := ⟨.empty, 0⟩
  signatures := [⟨"07", "aa", 0, 0⟩]
  memo := ""

theorem valid_arrival : arrival.Valid where
  fee := Coins.valid_empty
  messages := by
    have hone : (Coins.single "pow" 1).Valid := Coins.valid_single (by decide) 1
    simp only [arrival, List.forall_mem_cons, Message.Valid]
    exact ⟨hone, hone, hone, hone, fun _ hm => absurd hm List.not_mem_nil⟩

end Sample

/-- The document has the third packet from one chain come next, and the first one from another. -/
theorem Run.arrivals_arrival :
    ∃ a b next c d, Run Sample.stocked [] a ∧ Run Sample.stocked [Sample.arrival] b ∧
      b.read (Channels.nextSequence "iris") = .ok next ∧ next.toNat = 5 ∧
      a.stage Sample.arrival [] = (.ok (), c) ∧
      a.stage Sample.arrival [.receive ⟨Sample.shipment "iris", Sample.holder, 3⟩] = (.ok (), d) ∧
      Context.Gains Sample.holder (.single "pow" 1) c d := by
  obtain ⟨a, b, ha, hacc, -, hb⟩ :=
    Sample.exists_run Sample.valid_stocked Sample.valid_arrival (by decide +kernel)
  have hbounded : Bounded (receiptsFrom "iris" [Sample.arrival]) := by
    unfold Bounded
    decide
  obtain ⟨-, ⟨next, hread, hnext⟩, -⟩ := Run.arrivals hb "iris" hbounded
  obtain ⟨-, -, hcarries⟩ := Run.arrivals ha "iris" nofun
  obtain ⟨c, d, hc, hd, hpaid, -⟩ := (hcarries _ _ hacc).message [] _ _ rfl
  exact ⟨a, b, next, c, d, ha, hb, hread, hnext, hc, hd, hpaid _ rfl⟩

end App
end Appchain
