import Appchain.Proofs.LedgerRuns

/-!
# Looking up and changing parts of a ledger

For every part of the ledger, what the stores' primitive operations read of it
and how they change it.
-/

namespace Appchain

open StoreKey MultiStore Layout

theorem OrderedMap.get?_insert_self {K V : Type} [Ord K] [Std.TransOrd K] [Std.LawfulEqOrd K]
    [DecidableEq K] (m : OrderedMap K V) (k : K) (v : V) : (m.insert k v).get? k = some v := by
  rw [get?_insert, if_pos rfl]

theorem OrderedMap.get?_insert_of_ne {K V : Type} [Ord K] [Std.TransOrd K] [Std.LawfulEqOrd K]
    [DecidableEq K] (m : OrderedMap K V) {k j : K} (h : j ≠ k) (v : V) :
    (m.insert k v).get? j = m.get? j := by
  rw [get?_insert, if_neg h]

section Trees

variable {t : Tree}

theorem MainTree.set {trend : Option String} (h : MainTree t trend) (s : String) :
    MainTree (t.insert Trend.key (Bytes.ofString s)) (some s) where
  trend_eq := OrderedMap.get?_insert_self ..
  only := h.only.insert rfl _

theorem AccountTree.put {accounts : OrderedMap Address Account} {counter : Option UInt64}
    (h : AccountTree t accounts counter) {a : Account} (ha : a.coins.Valid) :
    AccountTree (t.insert (Accounts.key a.address) a.bytes) (accounts.insert a.address a) counter where
  accounts_eq := h.accounts_eq.insert a.address a
  counter_eq := by
    have hne : Accounts.counterKey ≠ Accounts.key a.address := by
      intro he
      have hp : Accounts.root <+: Accounts.counterKey := he ▸ List.prefix_append ..
      exact absurd hp (by decide)
    rw [OrderedMap.get?_insert_of_ne _ hne, h.counter_eq]
  only := h.only.insert (Or.inr (List.prefix_append ..)) _
  valid b x hx := by
    rw [OrderedMap.get?_insert] at hx
    split at hx
    · cases hx
      exact ha
    · exact h.valid b x hx

theorem AccountTree.setCounter {accounts : OrderedMap Address Account} {counter : Option UInt64}
    (h : AccountTree t accounts counter) (n : UInt64) :
    AccountTree (t.insert Accounts.counterKey (word.write n)) accounts (some n) where
  accounts_eq := h.accounts_eq.insert_of_not_below (by decide) _
  counter_eq := OrderedMap.get?_insert_self ..
  only := h.only.insert (Or.inl rfl) _
  valid := h.valid

theorem WorkTree.setDifficulty {difficulty count : Option UInt64} (h : WorkTree t difficulty count)
    (n : UInt64) :
    WorkTree (t.insert (Bytes.ofString Mining.difficultyName) (word.write n)) (some n) count where
  difficulty_eq := OrderedMap.get?_insert_self ..
  count_eq := by rw [OrderedMap.get?_insert_of_ne _ (by decide), h.count_eq]
  only := h.only.insert (Or.inl rfl) _

theorem WorkTree.setCount {difficulty count : Option UInt64} (h : WorkTree t difficulty count)
    (n : UInt64) :
    WorkTree (t.insert (Bytes.ofString Mining.countName) (word.write n)) difficulty (some n) where
  difficulty_eq := by rw [OrderedMap.get?_insert_of_ne _ (by decide), h.difficulty_eq]
  count_eq := OrderedMap.get?_insert_self ..
  only := h.only.insert (Or.inr rfl) _

namespace PacketTree

variable {lengths sequences : OrderedMap Label UInt64} {packets : String → UInt64 → Option Packet}

open Channels

/-- A key below one root is not a key below another. -/
theorem ne_of_below {r q j k : Bytes} (hr : r ∈ roots) (hq : q ∈ roots) (hne : r ≠ q)
    (hj : r <+: j) (hk : q <+: k) : j ≠ k := by
  rintro rfl
  exact not_below_of_below hr hq hne hj hk

theorem setLength (h : PacketTree t lengths sequences packets) (chain : String) (n : UInt64) :
    PacketTree (t.insert (lengthKey chain) (word.write n)) (lengths.insert ⟨chain⟩ n) sequences
      packets := by
  rw [lengthKey_eq]
  have hk := List.prefix_append (Bytes.ofString lengthRoot) (FileName.bytes (⟨chain⟩ : Label))
  constructor
  · exact h.lengths_eq.insert ⟨chain⟩ n
  · exact h.sequences_eq.insert_of_not_below
      (not_below_of_below (by decide) (by decide) (by decide) hk) _
  · intro c i
    rw [OrderedMap.get?_insert_of_ne _
      (ne_of_below (by decide) (by decide) (by decide) (queueKey_below c i) hk), h.packets_eq]
  · exact h.only.insert (Or.inr (Or.inl hk)) _
  · exact h.valid

theorem setSequence (h : PacketTree t lengths sequences packets) (chain : String) (n : UInt64) :
    PacketTree (t.insert (sequenceKey chain) (word.write n)) lengths (sequences.insert ⟨chain⟩ n)
      packets := by
  rw [sequenceKey_eq]
  have hk := List.prefix_append (Bytes.ofString sequenceRoot) (FileName.bytes (⟨chain⟩ : Label))
  constructor
  · exact h.lengths_eq.insert_of_not_below
      (not_below_of_below (by decide) (by decide) (by decide) hk) _
  · exact h.sequences_eq.insert ⟨chain⟩ n
  · intro c i
    rw [OrderedMap.get?_insert_of_ne _
      (ne_of_below (by decide) (by decide) (by decide) (queueKey_below c i) hk), h.packets_eq]
  · exact h.only.insert (Or.inr (Or.inr hk)) _
  · exact h.valid

theorem setPacket (h : PacketTree t lengths sequences packets) (chain : String) (n : UInt64)
    {p : Packet} (hp : p.coins.Valid) :
    PacketTree (t.insert (queueKey chain n) (Packet.wire.binary.write p)) lengths sequences
      fun c i => if c = chain ∧ i = n then some p else packets c i := by
  have hk := queueKey_below chain n
  constructor
  · exact h.lengths_eq.insert_of_not_below
      (not_below_of_below (by decide) (by decide) (by decide) hk) _
  · exact h.sequences_eq.insert_of_not_below
      (not_below_of_below (by decide) (by decide) (by decide) hk) _
  · intro c i
    by_cases hc : c = chain ∧ i = n
    · rw [if_pos hc, hc.1, hc.2, OrderedMap.get?_insert_self]
      rfl
    · rw [if_neg hc, OrderedMap.get?_insert_of_ne _ (mt queueKey_injective hc), h.packets_eq]
  · exact h.only.insert (Or.inl ⟨chain, n, rfl⟩) _
  · intro c i q hq
    split at hq
    · cases hq
      exact hp
    · exact h.valid c i q hq

end PacketTree

theorem FeeTree.set {fees : Option Coins} (h : FeeTree t fees) {f : Coins} (hf : f.Valid) :
    FeeTree (t.insert Fees.key (Coins.wire.binary.write f)) (some f) where
  fees_eq := OrderedMap.get?_insert_self ..
  only := h.only.insert rfl _
  valid g hg := by
    cases hg
    exact hf

theorem ParameterTree.setMemo {memo signatures : Option UInt64}
    (h : ParameterTree t memo signatures) (n : UInt64) :
    ParameterTree (t.insert Accounts.memoPath (Json.Shape.word.encode n)) (some n) signatures where
  memo_eq := OrderedMap.get?_insert_self ..
  signatures_eq := by rw [OrderedMap.get?_insert_of_ne _ (by decide), h.signatures_eq]
  only := h.only.insert (Or.inl rfl) _

theorem ParameterTree.setSignatures {memo signatures : Option UInt64}
    (h : ParameterTree t memo signatures) (n : UInt64) :
    ParameterTree (t.insert Accounts.signaturesPath (Json.Shape.word.encode n)) memo (some n) where
  memo_eq := by rw [OrderedMap.get?_insert_of_ne _ (by decide), h.memo_eq]
  signatures_eq := OrderedMap.get?_insert_self ..
  only := h.only.insert (Or.inr rfl) _

theorem MarkTree.mark (h : MarkTree t) {k : Bytes}
    (hk : k = Accounts.memoPath ∨ k = Accounts.signaturesPath) : MarkTree (t.insert k []) where
  empty_values j v hj := by
    rw [OrderedMap.get?_insert] at hj
    split at hj
    · cases hj
      rfl
    · exact h.empty_values j v hj
  only := h.only.insert hk _

end Trees

/-- The trees with another one in the place of one store. -/
def replaced (t : StoreKey → Tree) (key : StoreKey) (x : Tree) : StoreKey → Tree :=
  fun k => if k = key then x else t k

theorem Ledger.Stored.congr {l : Ledger} {t u : StoreKey → Tree} (h : l.Stored t)
    (same : ∀ key ∈ application, u key = t key) : l.Stored u where
  main := same .main (by decide) ▸ h.main
  accounts := same .accounts (by decide) ▸ h.accounts
  work := same .work (by decide) ▸ h.work
  packets := same .packets (by decide) ▸ h.packets
  bonds := same .bonds (by decide) ▸ h.bonds
  fees := same .fees (by decide) ▸ h.fees
  parameters := same .parameters (by decide) ▸ h.parameters
  marks := same .changedParameters (by decide) ▸ h.marks

/-- The coins of the ledger may all be listed. -/
structure Ledger.Valid (l : Ledger) : Prop where
  accounts : ∀ a x, l.accounts.get? a = some x → x.coins.Valid
  packets : ∀ c i p, l.packets c i = some p → p.coins.Valid
  fees : ∀ f, l.fees = some f → f.Valid

theorem Ledger.Stored.valid {l : Ledger} {t : StoreKey → Tree} (h : l.Stored t) : l.Valid :=
  ⟨h.accounts.valid, h.packets.valid, h.fees.valid⟩

variable {ε α : Type} {s : MultiStore} {mode : Mode} {l n : Ledger} {key : StoreKey}

theorem Reads.of_valid {x : ExecWith ε α} {r : Except ε α} (h : l.Valid → Reads s mode x l r) :
    Reads s mode x l r := fun c hc => h hc.stored.valid c hc

theorem Leaves.of_valid {x : ExecWith ε α} {r : Except ε Ledger}
    (h : l.Valid → Leaves s mode x l r) : Leaves s mode x l r := fun c hc => h hc.stored.valid c hc

theorem Context.Holds.updated {c d : Context} {x : Tree} (h : c.Holds s mode l)
    (hu : c.Updated key x d) (hn : n.Stored (replaced c.contents key x)) : d.Holds s mode n where
  store_eq := hu.store_eq.trans h.store_eq
  mode_eq := hu.mode_eq.trans h.mode_eq
  sound := hu.sound h.sound
  stored := hn.congr fun other ho => by
    unfold replaced
    split
    · next he => rw [he, hu.here]
    · next hne => exact hu.elsewhere ho hne

theorem Leaves.change (hk : key ∈ application) {f : View → View} {g : Tree → Tree}
    (ht : ∀ v, (f v).tree = v.tree) (hp : ∀ v, (f v).pending = v.pending)
    (hf : ∀ v, (f v).contents = g v.contents)
    (hn : ∀ t, l.Stored t → n.Stored (replaced t key (g (t key)))) :
    Leaves s mode (Exec.change key f) l (.ok n) := by
  intro c hc
  obtain ⟨d, hd, hu⟩ := Exec.run_change_contents hc.sound hk ht hp hf
  exact ⟨(), d, hd, hc.updated hu (hn _ hc.stored)⟩

theorem Leaves.write (hk : key ∈ application) {k value : Bytes}
    (hn : ∀ t, l.Stored t → n.Stored (replaced t key ((t key).insert k value))) :
    Leaves s mode (Exec.write key k value) l (.ok n) :=
  .change (g := fun t => t.insert k value) hk (fun _ => rfl) (fun _ => rfl)
    (fun v => v.contents_set k value) hn

theorem Leaves.erase (hk : key ∈ application) {k : Bytes}
    (hn : ∀ t, l.Stored t → n.Stored (replaced t key ((t key).erase k))) :
    Leaves s mode (Exec.erase key k) l (.ok n) :=
  .change (g := fun t => t.erase k) hk (fun _ => rfl) (fun _ => rfl)
    (fun v => v.contents_delete k) hn

theorem Reads.read (hk : key ∈ application) {k : Bytes} {value : Option Bytes}
    (h : ∀ t, l.Stored t → (t key).get? k = value) : Reads s mode (Exec.read key k) l (.ok value) := by
  intro c hc
  rw [Exec.run_read_contents hc.sound hk, h _ hc.stored]

theorem Reads.scan (hk : key ∈ application) {p : Bytes} {es : List (Bytes × Bytes)}
    (h : ∀ t, l.Stored t → ((t key).filterKeys fun k => p.isPrefixOf k).entries = es) :
    Reads s mode (Exec.scan key p) l (.ok es) := by
  intro c hc
  rw [Exec.run_scan_contents hc.sound hk, h _ hc.stored]

theorem Reads.decoded {r : Except Fault α} {a : α} (h : r = .ok a) :
    Reads s mode (Exec.decoded r) l (.ok a) := by
  intro c _
  rw [h]
  rfl

/-- A look-up that decodes what it finds. -/
theorem Reads.load (hk : key ∈ application) {k : Bytes} {w : Layout α} {a : Option α}
    (h : ∀ t, l.Stored t → (t key).get? k = a.map w.write) (hr : ∀ x ∈ a, w.ReadsBack x) :
    Reads s mode (Exec.load key w k) l (.ok a) := by
  unfold Exec.load
  apply (Reads.read hk h).bind (g := fun _ => .ok a)
  intro value hv
  cases hv
  cases a with
  | none => exact .pure none
  | some x =>
    have hx : Reads s mode (Exec.decoded (w.decode (w.write x))) l (.ok x) :=
      .decoded (hr x rfl).decode_write
    exact hx.map some

end Appchain
