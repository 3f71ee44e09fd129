import Appchain.Proofs.CoinSets
import Appchain.Proofs.Signatures

/-!
# Transactions as steps

A transaction that does no more than send coins, bond them and release bonds is a
list of steps. A step changes what one address has, or adds a fee to the collected
ones. Steps at different addresses may be taken in either order, and so may
additions of fees, also where a step cannot be taken.
-/

namespace Appchain

open Outcome

namespace Coins

theorem add?_right_comm (a b c : Coins) :
    ((a.add? b).bind fun t => t.add? c) = (a.add? c).bind fun t => t.add? b := by
  rw [add?_assoc, add?_assoc, add?_comm b c]

end Coins

namespace OrderedMap

variable {K V : Type} [Ord K] [Std.TransOrd K] [Std.LawfulEqOrd K] [DecidableEq K]

theorem set_get? (m : OrderedMap K V) (k : K) : m.set k (m.get? k) = m := by
  apply ext_get?
  intro j
  rw [get?_set]
  split
  · next hj => rw [hj]
  · rfl

theorem insert_eq_self {m : OrderedMap K V} {k : K} {v : V} (h : m.get? k = some v) :
    m.insert k v = m := by
  have hset := m.set_get? k
  rw [h] at hset
  exact hset

end OrderedMap

/-- What an address has. -/
structure Estate where
  account : Account
  bond : Option Bond

/-- Account and bond belong to the address. -/
structure Estate.Fits (e : Estate) (p : Address) : Prop where
  account : e.account.address = p
  bond : ∀ b, e.bond = some b → b.holder = p

namespace Estate

variable {e e' : Estate} {m : BondStake}

/-- The bond that a stake is added to. -/
def bondOf (e : Estate) (m : BondStake) : Bond := e.bond.getD ⟨m.holder, m.publicKey, 0⟩

def stake (e : Estate) (m : BondStake) : Option Estate :=
  if m.stake.denom ≠ Staking.denom then none
  else
    (e.account.coins.sub? (.single Staking.denom m.stake.amount)).bind fun rest =>
      (Word.add? (e.bondOf m).power m.stake.amount).map fun power =>
        ⟨e.account.withCoins rest, some { e.bondOf m with power }⟩

def release (e : Estate) : Option Estate :=
  e.bond.bind fun b =>
    (e.account.coins.add? (.single Staking.denom b.power)).map fun total =>
      ⟨e.account.withCoins total, none⟩

theorem stake_eq_some : e.stake m = some e' ↔ m.stake.denom = Staking.denom ∧ ∃ rest power,
    e.account.coins.sub? (.single Staking.denom m.stake.amount) = some rest ∧
    Word.add? (e.bondOf m).power m.stake.amount = some power ∧
    e' = ⟨e.account.withCoins rest, some { e.bondOf m with power }⟩ := by
  unfold stake
  split
  · next hd => exact iff_of_false nofun fun h => hd h.1
  · next hd =>
    simp only [Option.bind_eq_some_iff, Option.map_eq_some_iff, Classical.not_not.mp hd, true_and,
      exists_and_left, @eq_comm _ e']

theorem release_eq_some : e.release = some e' ↔ ∃ b total, e.bond = some b ∧
    e.account.coins.add? (.single Staking.denom b.power) = some total ∧
    e' = ⟨e.account.withCoins total, none⟩ := by
  unfold release
  simp only [Option.bind_eq_some_iff, Option.map_eq_some_iff, exists_and_left, @eq_comm _ e']

theorem Fits.holder_bondOf (h : e.Fits m.holder) : (e.bondOf m).holder = m.holder := by
  unfold bondOf
  cases hb : e.bond with
  | none => rfl
  | some b => exact h.bond b hb

end Estate

/-- A change of what an address has, if it can be made. -/
structure Change (p : Address) where
  apply : Estate → Option Estate
  fits : ∀ e e', e.Fits p → apply e = some e' → e'.Fits p

namespace Change

variable {p : Address}

/-- A change of the account alone, which stays where it is. -/
def ofAccount (p : Address) (f : Account → Option Account)
    (hf : ∀ x y, f x = some y → y.address = x.address) : Change p where
  apply e := (f e.account).map fun y => { e with account := y }
  fits e e' he h := by
    obtain ⟨y, hy, rfl⟩ := Option.map_eq_some_iff.mp h
    exact ⟨(hf e.account y hy).trans he.account, he.bond⟩

def signs (p : Address) (g : Signature) : Change p :=
  ofAccount p (fun x => (Admission.signed x p g).toOption) fun x y h => by
    obtain ⟨key, -, rfl⟩ := Admission.signed_eq_ok_iff.mp (toOption_eq_some.mp h)
    exact Admission.address_signedWith x key

def ofCoins (p : Address) (f : Coins → Option Coins) : Change p :=
  ofAccount p (fun x => (f x.coins).map fun c => x.withCoins c) fun x y h => by
    obtain ⟨c, -, rfl⟩ := Option.map_eq_some_iff.mp h
    exact Account.address_withCoins c x

def pays (p : Address) (amount : Coins) : Change p := ofCoins p fun c => c.sub? amount

def gains (p : Address) (amount : Coins) : Change p := ofCoins p fun c => c.add? amount

/-- Coins that an address sends to itself have to be there. -/
def affords (p : Address) (amount : Coins) : Change p :=
  ofCoins p fun c => (c.sub? amount).map fun _ => c

def stakes (m : BondStake) : Change m.holder where
  apply e := e.stake m
  fits e e' he h := by
    obtain ⟨-, rest, power, -, -, rfl⟩ := Estate.stake_eq_some.mp h
    refine ⟨(Account.address_withCoins ..).trans he.account, fun b hb => ?_⟩
    cases hb
    exact he.holder_bondOf

def releases (p : Address) : Change p where
  apply := Estate.release
  fits e e' he h := by
    obtain ⟨b, total, -, -, rfl⟩ := Estate.release_eq_some.mp h
    exact ⟨(Account.address_withCoins ..).trans he.account, nofun⟩

end Change

inductive Step where
  | change (p : Address) (c : Change p)
  | collect (fee : Coins)

namespace Step

/-- The step does not change what other addresses have. -/
def Within (who : List Address) : Step → Prop
  | change p _ => p ∈ who
  | collect _ => True

theorem Within.mono {who others : List Address} {s : Step} (hs : s.Within who)
    (h : ∀ p ∈ who, p ∈ others) : s.Within others := by
  cases s with
  | change p c => exact h p hs
  | collect fee => trivial

/-- The steps do not change what one address has. -/
def Apart : Step → Step → Prop
  | change p _, change q _ => p ≠ q
  | _, _ => True

theorem apart_of_disjoint {who others : List Address} (hd : ∀ p ∈ who, p ∉ others) {s s' : Step}
    (hs : s.Within who) (hs' : s'.Within others) : s.Apart s' := by
  cases s with
  | collect fee => trivial
  | change p c =>
    cases s' with
    | collect fee => trivial
    | change q d => exact fun he => hd p hs (he ▸ hs')

end Step

namespace Ledger

variable {l k n : Ledger} {p q : Address} {e : Estate}

def estate? (l : Ledger) (p : Address) : Option Estate :=
  (l.accounts.get? p).map fun x => ⟨x, l.bonds.get? p⟩

/-- The address has the estate now. -/
def endow (l : Ledger) (p : Address) (e : Estate) : Ledger :=
  { l with accounts := l.accounts.insert p e.account, bonds := l.bonds.set p e.bond }

def step (l : Ledger) : Step → Option Ledger
  | .change p c => ((l.estate? p).bind c.apply).map (l.endow p)
  | .collect fee =>
    ((l.fees.getD .empty).add? fee).map fun total => { l with fees := some total }

theorem step_change (l : Ledger) (c : Change p) :
    l.step (.change p c) = ((l.estate? p).bind c.apply).map (l.endow p) := rfl

theorem step_collect (l : Ledger) (fee : Coins) : l.step (.collect fee) =
    ((l.fees.getD .empty).add? fee).map fun total => { l with fees := some total } := rfl

/-- Takes the steps one after another. -/
def walk (l : Ledger) (ss : List Step) : Option Ledger := ss.foldlM step l

theorem walk_cons (l : Ledger) (s : Step) (ss : List Step) :
    l.walk (s :: ss) = (l.step s).bind fun k => k.walk ss := List.foldlM_cons

theorem walk_append (l : Ledger) (ss ss' : List Step) :
    l.walk (ss ++ ss') = (l.walk ss).bind fun k => k.walk ss' := List.foldlM_append

theorem walk_singleton (l : Ledger) (s : Step) : l.walk [s] = l.step s := by
  rw [walk_cons]
  exact Option.bind_fun_some (l.step s)

/-- What every step preserves holds after a walk. -/
theorem walk_preserves {P : Ledger → Prop} (h : ∀ l n s, P l → step l s = some n → P n)
    {ss : List Step} (hl : P l) (hs : l.walk ss = some n) : P n := by
  induction ss generalizing l with
  | nil =>
    cases hs
    exact hl
  | cons s ss ih =>
    rw [walk_cons] at hs
    obtain ⟨k, hk, hs⟩ := Option.bind_eq_some_iff.mp hs
    exact ih (h l k s hl hk) hs

theorem estate?_endow_self (l : Ledger) (p : Address) (e : Estate) :
    (l.endow p e).estate? p = some e := by
  unfold estate? endow
  simp only [OrderedMap.get?_insert, OrderedMap.get?_set, ↓reduceIte, Option.map_some]

theorem estate?_endow_of_ne (h : q ≠ p) : (l.endow p e).estate? q = l.estate? q := by
  unfold estate? endow
  simp only [OrderedMap.get?_insert, OrderedMap.get?_set, if_neg h]

theorem endow_endow_comm (h : p ≠ q) (l : Ledger) (e d : Estate) :
    (l.endow p e).endow q d = (l.endow q d).endow p e := by
  unfold endow
  simp only [mk.injEq, true_and, and_true]
  constructor
  · apply OrderedMap.ext_get?
    intro r
    simp only [OrderedMap.get?_insert]
    split
    · next hr => rw [if_neg (hr ▸ h.symm)]
    · rfl
  · apply OrderedMap.ext_get?
    intro r
    simp only [OrderedMap.get?_set]
    split
    · next hr => rw [if_neg (hr ▸ h.symm)]
    · rfl

/-! The order of steps. -/

/-- A step apart from an address does the same whatever the address has. -/
theorem step_endow {s : Step} {c : Change p} (h : (Step.change p c).Apart s) (l : Ledger)
    (e : Estate) : (l.endow p e).step s = (l.step s).map fun k => k.endow p e := by
  cases s with
  | collect fee =>
    rw [step_collect, step_collect, Option.map_map]
    rfl
  | change q d =>
    rw [step_change, step_change, estate?_endow_of_ne (Ne.symm h), Option.map_map]
    exact congrArg (Option.map · _) (funext fun d => endow_endow_comm h l e d)

theorem estate?_step {s : Step} {c : Change p} (h : (Step.change p c).Apart s)
    (hk : l.step s = some k) : k.estate? p = l.estate? p := by
  cases s with
  | collect fee =>
    obtain ⟨total, -, rfl⟩ := Option.map_eq_some_iff.mp hk
    rfl
  | change q d =>
    obtain ⟨e, -, rfl⟩ := Option.map_eq_some_iff.mp hk
    exact estate?_endow_of_ne h

theorem step_change_comm {s : Step} {c : Change p} (h : (Step.change p c).Apart s) (l : Ledger) :
    ((l.step (.change p c)).bind fun k => k.step s) =
      (l.step s).bind fun k => k.step (.change p c) := by
  -- Whatever the other step does, the address has afterwards what it has had.
  have hlater : ((l.step s).bind fun k => k.step (.change p c)) =
      (l.step s).bind fun k => ((l.estate? p).bind c.apply).map (k.endow p) := by
    refine Option.bind_congr fun k hk => ?_
    rw [step_change, estate?_step h hk]
  rw [hlater, step_change]
  cases (l.estate? p).bind c.apply with
  | none => cases l.step s <;> rfl
  | some e =>
    rw [Option.map_some, Option.bind_some, step_endow h]
    cases l.step s <;> rfl

/-- Steps apart may be taken in either order. -/
theorem step_comm {s s' : Step} (h : s.Apart s') (l : Ledger) :
    ((l.step s).bind fun k => k.step s') = (l.step s').bind fun k => k.step s := by
  cases s with
  | change p c => exact step_change_comm h l
  | collect fee =>
    cases s' with
    | change q d => exact (step_change_comm (s := .collect fee) trivial l).symm
    | collect fee' =>
      have htwice (fee fee' : Coins) :
          ((l.step (.collect fee)).bind fun k => k.step (.collect fee')) =
            (((l.fees.getD .empty).add? fee).bind fun total => total.add? fee').map
              fun total => { l with fees := some total } := by
        rw [step_collect]
        cases (l.fees.getD .empty).add? fee <;> rfl
      rw [htwice, htwice, Coins.add?_right_comm]

theorem step_walk_comm {s : Step} {ss : List Step} (h : ∀ s' ∈ ss, s.Apart s') (l : Ledger) :
    ((l.step s).bind fun k => k.walk ss) = (l.walk ss).bind fun k => k.step s := by
  induction ss generalizing l with
  | nil => exact Option.bind_fun_some (l.step s)
  | cons s' ss ih =>
    obtain ⟨hs', hss⟩ := List.forall_mem_cons.mp h
    calc (l.step s).bind (fun k => k.walk (s' :: ss))
        = ((l.step s).bind fun k => k.step s').bind fun k => k.walk ss := by
          simp only [walk_cons, Option.bind_assoc]
      _ = (l.step s').bind fun k => (k.step s).bind fun k => k.walk ss := by
          rw [step_comm hs', Option.bind_assoc]
      _ = (l.walk (s' :: ss)).bind fun k => k.step s := by
          simp only [walk_cons, Option.bind_assoc, ih hss]

/-- Walks apart may be taken in either order. -/
theorem walk_comm {ss ss' : List Step} (h : ∀ s ∈ ss, ∀ s' ∈ ss', s.Apart s') (l : Ledger) :
    ((l.walk ss).bind fun k => k.walk ss') = (l.walk ss').bind fun k => k.walk ss := by
  -- The later steps pass the other walk by induction, and then the first one passes it.
  induction ss generalizing l with
  | nil => exact (Option.bind_fun_some (l.walk ss')).symm
  | cons s ss ih =>
    obtain ⟨hs, hss⟩ := List.forall_mem_cons.mp h
    calc (l.walk (s :: ss)).bind (fun k => k.walk ss')
        = (l.step s).bind fun k => (k.walk ss').bind fun k => k.walk ss := by
          simp only [walk_cons, Option.bind_assoc, ih hss]
      _ = ((l.walk ss').bind fun k => k.step s).bind fun k => k.walk ss := by
          rw [← Option.bind_assoc, step_walk_comm hs]
      _ = (l.walk ss').bind fun k => k.walk (s :: ss) := by
          simp only [walk_cons, Option.bind_assoc]

end Ledger
end Appchain
