import Appchain.Proofs.AppRuns

/-!
# Queues of packets

The queue to a chain holds the packets that a document and the accepted
transactions sent there, in order, and its length is their number. The length is
an unchecked counter, so this holds as long as the packets to every chain can be
counted by a word.
-/

namespace Appchain

open Outcome

/-- The packets to a chain, in order. -/
def packetsTo (chain : String) (ps : List Packet) : List Packet :=
  ps.filter fun p => p.destination = chain

theorem packetsTo_append (chain : String) (ps qs : List Packet) :
    packetsTo chain (ps ++ qs) = packetsTo chain ps ++ packetsTo chain qs := List.filter_append ps qs

theorem packetsTo_append_self (p : Packet) (ps : List Packet) :
    packetsTo p.destination (ps ++ [p]) = packetsTo p.destination ps ++ [p] := by
  unfold packetsTo
  simp

theorem packetsTo_append_of_ne {chain : String} {p : Packet} (h : chain ≠ p.destination)
    (ps : List Packet) : packetsTo chain (ps ++ [p]) = packetsTo chain ps := by
  unfold packetsTo
  simp [h.symm]

/-- The packets to every chain can be counted by a word. The length of a queue is an unchecked
counter, so nothing is promised beyond. -/
def Countable (ps : List Packet) : Prop := ∀ chain, (packetsTo chain ps).length < UInt64.size

theorem countable_nil : Countable [] := by
  intro chain
  change 0 < UInt64.size
  decide

theorem Countable.of_append {ps qs : List Packet} (h : Countable (ps ++ qs)) : Countable ps := by
  intro chain
  have hc := h chain
  rw [packetsTo_append, List.length_append] at hc
  omega

/-- There is room for a packet that is counted. -/
theorem Countable.room {ps : List Packet} {p : Packet} (h : Countable (ps ++ [p])) :
    (packetsTo p.destination ps).length < UInt64.size := by
  have hc := h p.destination
  rw [packetsTo_append_self, List.length_append] at hc
  omega

/-- The packets that a message sends. -/
def Message.sends : Message → List Packet
  | .transfer m => [m.packet]
  | _ => []

theorem Message.sends_eq (m : Message) : (∃ t, m = .transfer t) ∨ m.sends = [] := by
  cases m with
  | transfer t => exact .inl ⟨t, rfl⟩
  | _ => exact .inr rfl

def Transaction.sends (t : Transaction) : List Packet := t.messages.flatMap Message.sends

/-- The packets that a document lists. -/
def Genesis.sends (g : Genesis) : List Packet := g.channels.queues.flatMap PacketQueue.packets

/-- What is sent is recorded by every step of a loop, hence by the loop. -/
theorem Outcome.foldlM_records {ε α β γ : Type} {f : β → α → Except ε β} {out : α → List γ}
    {P : β → List γ → Prop} {as : List α}
    (step : ∀ a ∈ as, ∀ b c xs, P b xs → f b a = .ok c → P c (xs ++ out a)) {b c : β} {xs : List γ}
    (hb : P b xs) (h : as.foldlM f b = .ok c) : P c (xs ++ as.flatMap out) := by
  induction as generalizing b xs with
  | nil =>
    cases h
    rw [List.flatMap_nil, List.append_nil]
    exact hb
  | cons a as ih =>
    rw [List.foldlM_cons] at h
    obtain ⟨d, hd, hc⟩ := bind_eq_ok.mp h
    have hi := ih (fun x hx => step x (List.mem_cons_of_mem a hx))
      (step a (List.mem_cons_self ..) b d xs hb hd) hc
    rw [List.append_assoc] at hi
    exact hi

namespace Ledger

/-- The packets have been put into the queues one after another, and no others. -/
structure Queued (l : Ledger) (ps : List Packet) : Prop where
  lengths_eq : ∀ c, l.lengths.get? ⟨c⟩ =
    if packetsTo c ps = [] then none else some (UInt64.ofNat (packetsTo c ps).length)
  packets_eq : ∀ c i, l.packets c i = (packetsTo c ps)[i.toNat]?

/-- Two ledgers with the same queues. -/
structure SameQueues (l n : Ledger) : Prop where
  lengths_eq : n.lengths = l.lengths
  packets_eq : n.packets = l.packets

variable {l n : Ledger} {ps : List Packet}

theorem SameQueues.trans {k : Ledger} (h : SameQueues l n) (h' : SameQueues n k) :
    SameQueues l k :=
  ⟨h'.lengths_eq.trans h.lengths_eq, h'.packets_eq.trans h.packets_eq⟩

theorem SameButAccounts.queues (h : SameButAccounts l n) : SameQueues l n := by
  rw [h]
  exact ⟨rfl, rfl⟩

/-- A message that sends no packet leaves the queues alone. -/
theorem sameQueues_of_apply {mode : Mode} {m : Message} (hm : m.sends = [])
    (h : l.apply mode m = .ok n) : SameQueues l n := by
  obtain ⟨k, hk, hr⟩ := exists_records h
  refine hk.queues.trans ?_
  cases m with
  | transfer m => cases hm
  | receive m =>
    obtain ⟨-, rfl⟩ := hr
    exact ⟨rfl, rfl⟩
  | bond m =>
    obtain ⟨power, -, rfl⟩ := hr
    exact ⟨rfl, rfl⟩
  | send m | unbond m | mine m | setTrend m | quiz m =>
    cases hr
    exact ⟨rfl, rfl⟩

namespace Queued

/-- Only the queues matter. -/
theorem of_same (h : l.Queued ps) (hs : SameQueues l n) : n.Queued ps := by
  constructor
  · intro c
    rw [hs.lengths_eq]
    exact h.lengths_eq c
  · intro c i
    rw [hs.packets_eq]
    exact h.packets_eq c i

theorem length_eq (h : l.Queued ps) (c : String) :
    l.length c = UInt64.ofNat (packetsTo c ps).length := by
  unfold length
  rw [h.lengths_eq]
  split
  · next he =>
    rw [he]
    rfl
  · rfl

/-- A packet goes to the end of its queue. -/
theorem post (h : l.Queued ps) {p : Packet} (hp : (packetsTo p.destination ps).length < UInt64.size) :
    (l.post p).Queued (ps ++ [p]) := by
  have hi : (UInt64.ofNat (packetsTo p.destination ps).length).toNat
      = (packetsTo p.destination ps).length := UInt64.toNat_ofNat_of_lt hp
  constructor
  · intro c
    unfold Ledger.post
    simp only
    rw [OrderedMap.get?_insert, h.length_eq]
    by_cases hc : c = p.destination
    · rw [hc, packetsTo_append_self, if_pos rfl, if_neg (List.append_ne_nil_of_right_ne_nil _ (by simp)),
        List.length_append, List.length_singleton, UInt64.ofNat_add]
      rfl
    · rw [if_neg (by simpa using hc), packetsTo_append_of_ne hc]
      exact h.lengths_eq c
  · intro c i
    unfold Ledger.post
    simp only
    rw [h.length_eq]
    by_cases hc : c = p.destination
    · subst hc
      rw [packetsTo_append_self]
      by_cases hn : i = UInt64.ofNat (packetsTo p.destination ps).length
      · rw [if_pos ⟨rfl, hn⟩, hn, hi, List.getElem?_concat_length]
      · have hne : i.toNat ≠ (packetsTo p.destination ps).length := by
          intro he
          exact hn (UInt64.toNat.inj (he.trans hi.symm))
        rw [if_neg fun h => hn h.2, h.packets_eq]
        rcases Nat.lt_or_gt_of_ne hne with hlt | hgt
        · rw [List.getElem?_append_left hlt]
        · rw [List.getElem?_eq_none (Nat.le_of_lt hgt), List.getElem?_eq_none]
          rw [List.length_append, List.length_singleton]
          exact hgt
    · rw [if_neg fun h => hc h.1, packetsTo_append_of_ne hc]
      exact h.packets_eq c i

/-- What a message sends is queued. -/
theorem apply (h : l.Queued ps) {mode : Mode} {m : Message} (hc : Countable (ps ++ m.sends))
    (ha : l.apply mode m = .ok n) : n.Queued (ps ++ m.sends) := by
  rcases m.sends_eq with ⟨t, rfl⟩ | hs
  · obtain ⟨k, hk, rfl⟩ := transfer_eq_ok.mp ha
    exact (h.of_same (debit_frame hk).queues).post hc.room
  · rw [hs, List.append_nil]
    exact h.of_same (sameQueues_of_apply hs ha)

theorem screen (h : l.Queued ps) {t : Transaction} (ha : l.screen t = .ok n) : n.Queued ps := by
  rw [screen_frame ha]
  exact h.of_same ⟨rfl, rfl⟩

theorem execute (h : l.Queued ps) {mode : Mode} {t : Transaction}
    (hc : Countable (ps ++ t.sends)) (he : l.execute mode t = .ok n) :
    n.Queued (ps ++ t.sends) := by
  obtain ⟨-, k, hk, hn⟩ := execute_eq_ok.mp he
  refine foldlM_records (P := fun l ps => Countable ps → l.Queued ps)
    (fun _ _ _ _ _ hq ha hc => ?_) (fun _ => h.screen hk) hn hc
  exact (hq hc.of_append).apply hc ha

theorem loadPacket (h : l.Queued ps) {chain : String} {p : Packet} (hc : Countable (ps ++ [p]))
    (hp : l.loadPacket chain p = .ok n) : n.Queued (ps ++ [p]) := by
  obtain ⟨-, rfl⟩ := loadPacket_eq_ok.mp hp
  exact h.post hc.room

theorem loadQueues (h : l.Queued ps) {seen : List String} {qs : List PacketQueue}
    (hc : Countable (ps ++ qs.flatMap PacketQueue.packets)) (hq : l.loadQueues seen qs = .ok n) :
    n.Queued (ps ++ qs.flatMap PacketQueue.packets) := by
  induction qs generalizing l seen ps with
  | nil =>
    cases hq
    rw [List.flatMap_nil, List.append_nil]
    exact h
  | cons q qs ih =>
    obtain ⟨-, -, k, hk, hn⟩ := loadQueues_cons_eq_ok.mp hq
    rw [List.flatMap_cons, ← List.append_assoc] at hc ⊢
    refine ih ?_ hc hn
    have hr : Countable (ps ++ q.packets.flatMap ([·])) → k.Queued (ps ++ q.packets.flatMap ([·])) :=
      foldlM_records (P := fun l ps => Countable ps → l.Queued ps)
        (fun _ _ _ _ _ hq ha hc => (hq hc.of_append).loadPacket hc ha) (fun _ => h) hk
    rw [List.flatMap_singleton'] at hr
    exact hr hc.of_append

/-- A chain starts with the packets of its document. -/
theorem of_genesis {g : Genesis} (hc : Countable g.sends) (h : ofGenesis g = .ok n) :
    n.Queued g.sends := by
  obtain ⟨l₁, l₂, l₃, h⟩ := ofGenesis_eq_ok.mp h
  have h₀ : (initial g).Queued [] := by
    rw [initial_eq]
    exact ⟨fun _ => rfl, fun _ _ => rfl⟩
  have h₁ : l₁.Queued [] := h₀.of_same (loadAccounts_frame h.accounts).queues
  have h₂ : l₂.Queued g.sends := by
    have hw : ((l₁.setWork g.mining).setTrend g.trend.trend).Queued [] := h₁.of_same ⟨rfl, rfl⟩
    exact hw.loadQueues hc h.queues
  rw [loadBonds_frame h.bonds, loadSequences_frame h.sequences]
  exact h₂.of_same ⟨rfl, rfl⟩

end Queued
end Ledger

/-- The packets of a document and of the transactions after it. -/
def Genesis.sendsWith (g : Genesis) (ts : List Transaction) : List Packet :=
  g.sends ++ ts.flatMap Transaction.sends

/-- A run has queued what its document and its transactions have sent. -/
theorem Ledger.Queued.of_run {g : Genesis} {ts : List Transaction} {start l : Ledger}
    (hc : Countable (g.sendsWith ts)) (hs : ofGenesis g = .ok start)
    (h : ts.foldlM (fun l t => l.execute .deliver t) start = .ok l) :
    l.Queued (g.sendsWith ts) := by
  refine foldlM_records (P := fun l ps => Countable ps → l.Queued ps)
    (fun _ _ _ _ _ hq ha hc => (hq hc.of_append).execute hc ha) (fun hc => ?_) h hc
  exact of_genesis hc hs

end Appchain
