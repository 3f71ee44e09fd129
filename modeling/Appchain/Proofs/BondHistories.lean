import Appchain.Proofs.LoadedGenesis
import Appchain.Proofs.Reimport
import Appchain.Proofs.Stages
import Mathlib.Data.List.DropRight

/-!
# Histories of bonds

The bond of an address is what it has staked since it last released a bond: the
bond of the document counts as the first stake. Its power is their sum, and its
key is that of the first of them.
-/

namespace Appchain

open Outcome

structure Stake where
  publicKey : String
  amount : UInt64
  deriving DecidableEq

/-- What happens to the bond of an address. -/
inductive BondChange where
  | stake (s : Stake)
  | release
  deriving DecidableEq

namespace BondChange

def stake? : BondChange → Option Stake
  | stake s => some s
  | release => none

/-- The stakes after the last release. -/
def held (es : List BondChange) : List Stake :=
  (es.rtakeWhile fun e => e.stake?.isSome).filterMap stake?

@[simp] theorem held_append_stake (es : List BondChange) (s : Stake) :
    held (es ++ [stake s]) = held es ++ [s] := by
  unfold held
  rw [List.rtakeWhile_concat_pos _ _ _ (by simp [stake?]), List.filterMap_append]
  rfl

@[simp] theorem held_append_release (es : List BondChange) : held (es ++ [release]) = [] := by
  unfold held
  rw [List.rtakeWhile_concat_neg _ _ _ (by simp [stake?])]
  rfl

end BondChange

/-- What a message does to the bond of an address. -/
def Message.bondings (p : Address) : Message → List BondChange
  | .bond m => if m.holder = p then [.stake ⟨m.publicKey, m.stake.amount⟩] else []
  | .unbond m => if m.holder = p then [.release] else []
  | _ => []

def Transaction.bondings (p : Address) (t : Transaction) : List BondChange :=
  t.messages.flatMap (Message.bondings p)

theorem Message.bondings_eq (p : Address) (m : Message) :
    (∃ s, m = .bond s ∧ s.holder = p ∧ m.bondings p = [.stake ⟨s.publicKey, s.stake.amount⟩]) ∨
      (∃ u, m = .unbond u ∧ u.holder = p ∧ m.bondings p = [.release]) ∨ m.bondings p = [] := by
  cases m with
  | bond s =>
    by_cases hs : s.holder = p
    · exact .inl ⟨s, rfl, hs, if_pos hs⟩
    · exact .inr (.inr (if_neg hs))
  | unbond u =>
    by_cases hu : u.holder = p
    · exact .inr (.inl ⟨u, rfl, hu, if_pos hu⟩)
    · exact .inr (.inr (if_neg hu))
  | _ => exact .inr (.inr rfl)

/-- The bond that a document gives to an address. -/
def Genesis.bondings (g : Genesis) (p : Address) : List BondChange :=
  ((g.staking.bonds.find? fun b => b.holder = p).map fun b =>
    BondChange.stake ⟨b.publicKey, b.power⟩).toList

/-- What an address has staked, after a document and some transactions, and not released. -/
def Genesis.stakesOf (g : Genesis) (ts : List Transaction) (p : Address) : List Stake :=
  BondChange.held (g.bondings p ++ ts.flatMap (Transaction.bondings p))

def Stake.total (ss : List Stake) : Nat := (ss.map fun s => s.amount.toNat).sum

theorem Stake.total_cons (s : Stake) (ss : List Stake) :
    total (s :: ss) = s.amount.toNat + total ss := rfl

theorem Stake.total_append (ss : List Stake) (s : Stake) :
    total (ss ++ [s]) = total ss + s.amount.toNat := by simp [total]

/-- Stakes of an address amount to a bond with the key of the first and the power of all. -/
def AmountsTo (p : Address) : List Stake → Option Bond → Prop
  | [], b => b = none
  | s :: ss, b => ∃ power, b = some ⟨p, s.publicKey, power⟩ ∧ power.toNat = Stake.total (s :: ss)

/-- A stake is added to the bond of those before it, or is the first of a new one. -/
theorem AmountsTo.add {p : Address} {ss : List Stake} {b : Option Bond} {s : Stake} {power : UInt64}
    (h : AmountsTo p ss b)
    (hp : Word.add? (b.getD ⟨p, s.publicKey, 0⟩).power s.amount = some power) :
    AmountsTo p (ss ++ [s]) (some { b.getD ⟨p, s.publicKey, 0⟩ with power }) := by
  have hsum := Word.add?_eq_some_iff.mp hp
  cases ss with
  | nil =>
    cases h
    refine ⟨power, rfl, ?_⟩
    rw [← hsum, Stake.total_cons]
    exact Nat.add_comm ..
  | cons t ss =>
    obtain ⟨before, rfl, hb⟩ := h
    refine ⟨power, rfl, ?_⟩
    change power.toNat = Stake.total ((t :: ss) ++ [s])
    rw [Stake.total_append, ← hb, ← hsum]
    rfl

namespace Ledger

variable {l n : Ledger} {p : Address} {es : List BondChange}

theorem bondOf_of_frame (h : SameButAccounts l n) (m : BondStake) : n.bondOf m = l.bondOf m := by
  rw [h]
  rfl

theorem bonds_of_frame (h : SameButAccounts l n) : n.bonds = l.bonds := by rw [h]

theorem get?_bonds_putBond (l : Ledger) (b : Bond) (p : Address) :
    (l.putBond b).bonds.get? p = if p = b.holder then some b else l.bonds.get? p :=
  OrderedMap.get?_insert ..

/-- What a stake does to the bonds. -/
theorem get?_bonds_of_bond (hl : l.WellFormed) {mode : Mode} {m : BondStake}
    (h : l.apply mode (.bond m) = .ok n) (p : Address) :
    ∃ power, Word.add? (l.bondOf m).power m.stake.amount = some power ∧
      n.bonds.get? p = if p = m.holder then some { l.bondOf m with power } else l.bonds.get? p := by
  obtain ⟨k, hk, power, hp, rfl⟩ := exists_records h
  rw [bondOf_of_frame hk] at hp ⊢
  refine ⟨power, hp, ?_⟩
  rw [get?_bonds_putBond, bonds_of_frame hk, hl.holder_bondOf]

theorem get?_bonds_of_unbond {mode : Mode} {m : Unbond} (h : l.apply mode (.unbond m) = .ok n)
    (p : Address) : n.bonds.get? p = if p = m.holder then none else l.bonds.get? p := by
  obtain ⟨k, hk, rfl⟩ := exists_records h
  rw [← bonds_of_frame hk]
  exact OrderedMap.get?_erase ..

/-- A message that does nothing to the bond of an address leaves it alone. -/
theorem get?_bonds_of_apply (hl : l.WellFormed) {mode : Mode} {m : Message} (hm : m.bondings p = [])
    (h : l.apply mode m = .ok n) : n.bonds.get? p = l.bonds.get? p := by
  cases m with
  | bond m =>
    obtain ⟨power, -, hn⟩ := get?_bonds_of_bond hl h p
    rw [hn, if_neg]
    rintro rfl
    simp [Message.bondings] at hm
  | unbond m =>
    rw [get?_bonds_of_unbond h, if_neg]
    rintro rfl
    simp [Message.bondings] at hm
  | receive m =>
    obtain ⟨k, hk, -, rfl⟩ := exists_records h
    exact congrArg (·.get? p) (bonds_of_frame hk)
  | send m | transfer m | mine m | setTrend m | quiz m =>
    obtain ⟨k, hk, hr⟩ := exists_records h
    cases hr
    exact congrArg (·.get? p) (bonds_of_frame hk)

/-- The bond of an address is what the changes to it amount to. -/
def Bonded (l : Ledger) (p : Address) (es : List BondChange) : Prop :=
  AmountsTo p (BondChange.held es) (l.bonds.get? p)

namespace Bonded

theorem of_eq (h : l.Bonded p es) (hn : n.bonds.get? p = l.bonds.get? p) : n.Bonded p es := by
  unfold Bonded
  rw [hn]
  exact h

theorem apply (h : l.Bonded p es) (hl : l.WellFormed) {mode : Mode} {m : Message}
    (ha : l.apply mode m = .ok n) : n.Bonded p (es ++ m.bondings p) := by
  rcases m.bondings_eq p with ⟨s, rfl, rfl, he⟩ | ⟨u, rfl, rfl, he⟩ | he
  · obtain ⟨power, hp, hn⟩ := get?_bonds_of_bond hl ha s.holder
    unfold Bonded
    rw [he, hn, if_pos rfl, BondChange.held_append_stake]
    exact AmountsTo.add h hp
  · unfold Bonded
    rw [he, get?_bonds_of_unbond ha, if_pos rfl, BondChange.held_append_release]
    rfl
  · rw [he, List.append_nil]
    exact h.of_eq (get?_bonds_of_apply hl he ha)

theorem execute (h : l.Bonded p es) (hl : l.WellFormed) {mode : Mode} {t : Transaction}
    (he : l.execute mode t = .ok n) : n.Bonded p (es ++ t.bondings p) := by
  obtain ⟨hc, k, hk, hn⟩ := execute_eq_ok.mp he
  have hscreened : k.Bonded p es := h.of_eq (by rw [screen_frame hk])
  have hmessages : n.WellFormed ∧ n.Bonded p (es ++ t.bondings p) := by
    refine foldlM_records (P := fun k es => k.WellFormed ∧ k.Bonded p es)
      (fun m hm k n es hb ha => ?_) ⟨hl.screen hk, hscreened⟩ hn
    exact ⟨hb.1.apply (Transaction.messages_of_check hc m hm) ha, hb.2.apply hb.1 ha⟩
  exact hmessages.2

/-- A chain starts with the bonds of its document. -/
theorem of_genesis {g : Genesis} (h : ofGenesis g = .ok n) (p : Address) : n.Bonded p (g.bondings p) := by
  have hn : n.WellFormed := .of_genesis h
  obtain ⟨l₁, l₂, l₃, h⟩ := ofGenesis_eq_ok.mp h
  unfold Bonded Genesis.bondings
  cases hb : g.staking.bonds.find? fun b => b.holder = p with
  | none =>
    have hne : ∀ b ∈ g.staking.bonds, b.holder ≠ p := by simpa using hb
    exact h.get?_bonds_of_ne hn hne
  | some b =>
    obtain rfl : b.holder = p := by simpa using List.find?_some hb
    rw [h.get?_bonds_of_mem hn (List.mem_of_find?_eq_some hb)]
    exact ⟨b.power, rfl, rfl⟩

theorem of_run {g : Genesis} {ts : List Transaction} {start : Ledger} (p : Address)
    (hs : ofGenesis g = .ok start)
    (h : ts.foldlM (fun l t => l.execute .deliver t) start = .ok l) :
    l.Bonded p (g.bondings p ++ ts.flatMap (Transaction.bondings p)) := by
  have hr : l.WellFormed ∧ l.Bonded p (g.bondings p ++ ts.flatMap (Transaction.bondings p)) := by
    refine foldlM_records (P := fun k es => k.WellFormed ∧ k.Bonded p es)
      (fun t _ k n es hb he => ?_) ⟨.of_genesis hs, of_genesis hs p⟩ h
    exact ⟨hb.1.execute he, hb.2.execute hb.1 he⟩
  exact hr.2

end Bonded
end Ledger

namespace App

variable {a : App} {g : Genesis} {ts : List Transaction}

/-- At every point of a run the bond of an address is what it has staked since it last released one,
and the bonds are listed in the order of their addresses. Whenever a further transaction is accepted,
a stake is paid in full, a bond is given back in full, and no message changes the bond of anybody who
neither stakes nor releases with it. -/
theorem Run.bonds_follow (h : Run g ts a) :
    (∀ p, ∃ b, a.bond p = .ok b ∧ AmountsTo p (g.stakesOf ts p) b) ∧
      (∃ bs, a.read Staking.all = .ok bs ∧
        a.read Staking.validators = .ok (bs.map Bond.validator) ∧
        (bs.Pairwise fun b c => compare b.holder.bytes c.holder.bytes = .lt) ∧
        ∀ b, b ∈ bs ↔ a.bond b.holder = .ok (some b)) ∧
      ∀ text t, a.accepted (.deliver text) = some t → a.Carries text t fun m c d =>
        (∀ s, m = .bond s → s.stake.denom = "steak" ∧
          Context.Gains s.holder (.single "steak" s.stake.amount) d c) ∧
        (∀ u, m = .unbond u → ∃ b, c.read (Staking.get? u.holder) = .ok (some b) ∧
          d.read (Staking.get? u.holder) = .ok none ∧
          Context.Gains u.holder (.single "steak" b.power) c d) ∧
        ∀ p, m.bondings p = [] → ∃ b, c.read (Staking.get? p) = .ok b ∧
          d.read (Staking.get? p) = .ok b := by
  obtain ⟨start, l, hs, hts, hh, hl⟩ := h.holds
  refine ⟨fun p => ⟨_, hh.bond_eq p, Ledger.Bonded.of_run p hs hts⟩,
    ⟨l.listedBonds, hh.read_eq Staking.reads_all, ?_, hl.ascending_bonds, fun b => ?_⟩,
    fun text t ht => ?_⟩
  · rw [hh.read_eq Staking.reads_validators]
    unfold Ledger.listedBonds
    rw [List.map_map]
    rfl
  · rw [hh.bond_eq, Except.ok.injEq, hl.get?_bonds_iff]
    exact (and_iff_left rfl).symm
  · refine hh.carries hl ht fun k n m c d hk ha hc hd => ⟨?_, ?_, fun p hp => ?_⟩
    · rintro s rfl
      obtain ⟨hdenom, k', power, hdebit, -, rfl⟩ := Ledger.bond_eq_ok.mp ha
      exact ⟨hdenom, hd.gains hc fun denom q => Ledger.balance_debit hk.accounts hdebit denom q⟩
    · rintro u rfl
      obtain ⟨b, hb, hcredit⟩ := Ledger.unbond_eq_ok.mp ha
      refine ⟨b, ?_, ?_, hc.gains hd fun denom q =>
        Ledger.balance_credit (hk.eraseBond u.holder).accounts hcredit denom q⟩
      · rw [hc.read_eq (Staking.reads_get? _), hb]
      · rw [hd.read_eq (Staking.reads_get? _), Ledger.get?_bonds_of_unbond ha, if_pos rfl]
    · refine ⟨_, hc.read_eq (Staking.reads_get? p), ?_⟩
      rw [hd.read_eq (Staking.reads_get? p), Ledger.get?_bonds_of_apply hk hp ha]

namespace Sample

def staked : Genesis :=
  { genesis with
    accounts := [⟨holder, .single "steak" 9⟩]
    staking := ⟨[⟨friend, "08", 2⟩]⟩ }

/-- A bond that is given back and made anew, with two stakes under different keys. -/
def restake : Transaction where
  messages := [.bond ⟨holder, ⟨"steak", 4⟩, "0a"⟩, .unbond ⟨holder⟩,
    .bond ⟨holder, ⟨"steak", 3⟩, "0b"⟩, .bond ⟨holder, ⟨"steak", 2⟩, "0c"⟩]
  fee := ⟨.empty, 0⟩
  signatures := [⟨"07", "aa", 0, 0⟩]
  memo := ""

theorem valid_staked : staked.Valid where
  fees := Coins.valid_empty
  accounts := List.forall_mem_singleton.mpr (Coins.valid_single (by decide) 9)
  packets := nofun

theorem valid_restake : restake.Valid where
  fee := Coins.valid_empty
  messages := by simp [restake, Message.Valid]

end Sample

/-- The bond has the first of the two later keys, and the stake of the first one has come back. -/
theorem Run.bonds_follow_restake :
    ∃ a b power c d, Run Sample.staked [] a ∧ Run Sample.staked [Sample.restake] b ∧
      b.bond Sample.holder = .ok (some ⟨Sample.holder, "0b", power⟩) ∧ power.toNat = 5 ∧
      a.stage Sample.restake [.bond ⟨Sample.holder, ⟨"steak", 4⟩, "0a"⟩] = (.ok (), c) ∧
      a.stage Sample.restake [.bond ⟨Sample.holder, ⟨"steak", 4⟩, "0a"⟩, .unbond ⟨Sample.holder⟩] =
        (.ok (), d) ∧
      d.read (Staking.get? Sample.holder) = .ok none := by
  obtain ⟨a, b, ha, hacc, -, hb⟩ :=
    Sample.exists_run Sample.valid_staked Sample.valid_restake (by decide +kernel)
  have hstakes : Sample.staked.stakesOf [Sample.restake] Sample.holder = [⟨"0b", 3⟩, ⟨"0c", 2⟩] := by
    decide +kernel
  obtain ⟨hbonds, -, -⟩ := Run.bonds_follow hb
  obtain ⟨_, hbond, hamount⟩ := hbonds Sample.holder
  rw [hstakes] at hamount
  obtain ⟨power, rfl, hpower⟩ := hamount
  obtain ⟨-, -, hcarries⟩ := Run.bonds_follow ha
  obtain ⟨c, d, hc, hd, -, hunbond, -⟩ := (hcarries _ _ hacc).message [_] _ _ rfl
  obtain ⟨-, -, hnone, -⟩ := hunbond _ rfl
  exact ⟨a, b, power, c, d, ha, hb, hbond, hpower, hc, hd, hnone⟩

end App
end Appchain
