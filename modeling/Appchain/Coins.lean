import Appchain.OrderedMap
import Appchain.Word

/-!
# Coins

A coin set binds denominations to positive amounts. Sets are canonical: the
entries ascend by denomination and none is zero, so equal balances are equal
values (`ext_amountOf`). Sums and differences exist only where every amount fits
its word, and then are exact (`add?_eq_some_iff`, `sub?_eq_some_iff`).
-/

namespace Appchain

structure Coin where
  denom : String
  amount : UInt64
  deriving DecidableEq, Repr, Inhabited

namespace Coin

instance : ToString Coin := ⟨fun c => toString c.amount ++ c.denom⟩

end Coin

/-- Two to sixteen lowercase letters and digits, a letter first. -/
def validDenom (denom : String) : Bool :=
  match denom.toList with
  | [] => false
  | c :: cs =>
    c.isLower && cs.all (fun d => d.isLower || d.isDigit) && 1 ≤ cs.length && cs.length ≤ 15

/-- Positive amounts by denomination. -/
structure Coins where
  amounts : OrderedMap String UInt64
  positive : ∀ e ∈ amounts.entries, e.2 ≠ 0
  deriving DecidableEq

namespace Coins

/-- Why a list of coins is no coin set. -/
inductive Fault where
  | invalidDenom (denom : String)
  | duplicateDenom (denom : String)
  deriving DecidableEq, Repr

def Fault.message : Fault → String
  | invalidDenom d => "invalid denom '" ++ d ++ "'"
  | duplicateDenom d => "duplicate denom '" ++ d ++ "'"

def empty : Coins := ⟨∅, by simp [EmptyCollection.emptyCollection, OrderedMap.empty]⟩

instance : Inhabited Coins := ⟨empty⟩

/-- Drops the zero amounts. -/
def ofAmounts (m : OrderedMap String UInt64) : Coins :=
  ⟨m.filter (·.2 ≠ 0), by simp [OrderedMap.filter]⟩

/-- Binds the coins one by one; zero amounts count for duplicates. -/
def collect : OrderedMap String UInt64 → List Coin → Except Fault (OrderedMap String UInt64)
  | m, [] => .ok m
  | m, c :: cs =>
    if !validDenom c.denom then .error (.invalidDenom c.denom)
    else if m.contains c.denom then .error (.duplicateDenom c.denom)
    else collect (m.insert c.denom c.amount) cs

def ofList (cs : List Coin) : Except Fault Coins := (collect ∅ cs).map ofAmounts

/-- One denomination, whose spelling is the caller's business. -/
def single (denom : String) (amount : UInt64) : Coins := ofAmounts (OrderedMap.empty.insert denom amount)

def toList (a : Coins) : List Coin := a.amounts.entries.map fun e => ⟨e.1, e.2⟩

def amountOf (a : Coins) (denom : String) : UInt64 := (a.amounts.get? denom).getD 0

def isEmpty (a : Coins) : Bool := a.amounts.isEmpty

def size (a : Coins) : Nat := a.amounts.entries.length

/-- Changes one amount by `f`. -/
def change? (f : UInt64 → UInt64 → Option UInt64) (m : OrderedMap String UInt64)
    (e : String × UInt64) : Option (OrderedMap String UInt64) :=
  (f ((m.get? e.1).getD 0) e.2).map (m.insert e.1 ·)

/-- Changes the amount of every denomination of `b` by `f`, from zero where there is none. -/
def combine? (f : UInt64 → UInt64 → Option UInt64) (a b : Coins) : Option Coins :=
  (b.amounts.entries.foldlM (change? f) a.amounts).map ofAmounts

def add? (a b : Coins) : Option Coins := combine? Word.add? a b

def sub? (a b : Coins) : Option Coins := combine? Word.sub? a b

/-- Whether `a` holds at least the amounts of `b`. -/
def covers (a b : Coins) : Bool := b.amounts.entries.all fun e => e.2 ≤ a.amountOf e.1

instance : ToString Coins where
  toString a := if a.isEmpty then "0" else ",".intercalate (a.toList.map toString)

@[simp] theorem amountOf_empty (denom : String) : empty.amountOf denom = 0 := rfl

theorem amountOf_ofAmounts (m : OrderedMap String UInt64) (denom : String) :
    (ofAmounts m).amountOf denom = (m.get? denom).getD 0 := by
  simp only [amountOf, ofAmounts, OrderedMap.get?_filter]
  cases h : m.get? denom with
  | none => rfl
  | some n => by_cases hn : n = 0 <;> simp [Option.filter, hn]

theorem ext_amountOf {a b : Coins} (h : ∀ d, a.amountOf d = b.amountOf d) : a = b := by
  have key : ∀ (c : Coins) d, c.amounts.get? d = if c.amountOf d = 0 then none else some (c.amountOf d) := by
    intro c d
    cases hg : c.amounts.get? d with
    | none => simp [amountOf, hg]
    | some n =>
      have := c.positive (d, n) ((OrderedMap.mem_entries_iff _ _ _).mpr hg)
      simpa [amountOf, hg] using this
  obtain ⟨m, hm⟩ := a
  obtain ⟨n, hn⟩ := b
  have : m = n := OrderedMap.ext_get? fun d => by
    rw [key ⟨m, hm⟩ d, key ⟨n, hn⟩ d, h d]
  subst this
  rfl

/-- Every amount is changed by `f`, or there is one that cannot be. -/
theorem foldlM_change? {f : UInt64 → UInt64 → Option UInt64} (hf : ∀ x, f x 0 = some x)
    (m w : OrderedMap String UInt64) :
    match w.entries.foldlM (change? f) m with
    | some n => ∀ d, f ((m.get? d).getD 0) ((w.get? d).getD 0) = some ((n.get? d).getD 0)
    | none => ∃ d, f ((m.get? d).getD 0) ((w.get? d).getD 0) = none := by
  obtain ⟨l, h⟩ := w
  induction l generalizing m with
  | nil => exact fun d => hf _
  | cons e l ih =>
    obtain ⟨he, hl⟩ := List.pairwise_cons.mp h
    have none_below : OrderedMap.lookup e.1 l = none := OrderedMap.lookup_eq_none_of_lt he
    have same (d : String) (hd : d ≠ e.1) :
        OrderedMap.lookup d (e :: l) = OrderedMap.lookup d l := by
      rw [OrderedMap.lookup]
      cases hc : compare d e.1 with
      | lt =>
        exact (OrderedMap.lookup_eq_none_of_lt fun x hx => Std.TransCmp.lt_trans hc (he x hx)).symm
      | eq => exact absurd (Std.LawfulEqCmp.eq_of_compare hc) hd
      | gt => rfl
    have here : OrderedMap.lookup e.1 (e :: l) = some e.2 := by simp [OrderedMap.lookup]
    simp only [List.foldlM_cons, change?]
    cases hv : f ((m.get? e.1).getD 0) e.2 with
    | none =>
      refine ⟨e.1, ?_⟩
      simpa [OrderedMap.get?, here] using hv
    | some v =>
      have hi := ih (m.insert e.1 v) hl
      simp only [Option.map_some, bind, Option.bind_some]
      split at hi
      · next n hn =>
        simp only at hn
        rw [hn]
        intro d
        have hi := hi d
        rw [OrderedMap.get?_insert] at hi
        by_cases hd : d = e.1
        · subst hd
          simp only [↓reduceIte, Option.getD_some, OrderedMap.get?, none_below, Option.getD_none,
            hf] at hi
          simpa [OrderedMap.get?, here, ← hi] using hv
        · simpa [OrderedMap.get?, hd, same d hd] using hi
      · next hn =>
        simp only at hn
        rw [hn]
        obtain ⟨d, hi⟩ := hi
        rw [OrderedMap.get?_insert] at hi
        by_cases hd : d = e.1
        · subst hd
          simp [OrderedMap.get?, none_below, hf] at hi
        · exact ⟨d, by simpa [OrderedMap.get?, hd, same d hd] using hi⟩

theorem combine?_eq_some_iff {f : UInt64 → UInt64 → Option UInt64} (hf : ∀ x, f x 0 = some x)
    {a b c : Coins} :
    combine? f a b = some c ↔ ∀ d, f (a.amountOf d) (b.amountOf d) = some (c.amountOf d) := by
  have h := foldlM_change? hf a.amounts b.amounts
  rw [combine?]
  cases hn : b.amounts.entries.foldlM (change? f) a.amounts with
  | none =>
    rw [hn] at h
    obtain ⟨d, hd⟩ := h
    constructor
    · simp
    · intro hc
      exact absurd (hc d) (by simp [amountOf, hd])
  | some n =>
    rw [hn] at h
    have amount (d : String) : (ofAmounts n).amountOf d = (n.get? d).getD 0 := amountOf_ofAmounts n d
    constructor
    · intro hc d
      cases hc
      rw [amount]
      exact h d
    · intro hc
      refine congrArg some (ext_amountOf fun d => ?_)
      rw [amount]
      exact Option.some.inj ((h d).symm.trans (hc d))

theorem combine?_eq_none_iff {f : UInt64 → UInt64 → Option UInt64} (hf : ∀ x, f x 0 = some x)
    {a b : Coins} : combine? f a b = none ↔ ∃ d, f (a.amountOf d) (b.amountOf d) = none := by
  have h := foldlM_change? hf a.amounts b.amounts
  rw [combine?]
  cases hn : b.amounts.entries.foldlM (change? f) a.amounts with
  | none =>
    rw [hn] at h
    exact iff_of_true rfl h
  | some n =>
    rw [hn] at h
    refine iff_of_false (by simp) ?_
    rintro ⟨d, hd⟩
    cases (h d).symm.trans hd

theorem add?_eq_some_iff {a b c : Coins} :
    a.add? b = some c ↔
      ∀ d, (a.amountOf d).toNat + (b.amountOf d).toNat = (c.amountOf d).toNat := by
  rw [add?, combine?_eq_some_iff fun x => Word.add?_eq_some_iff.mpr (Nat.add_zero _)]
  simp only [Word.add?_eq_some_iff]

theorem sub?_eq_some_iff {a b c : Coins} :
    a.sub? b = some c ↔
      ∀ d, (b.amountOf d).toNat + (c.amountOf d).toNat = (a.amountOf d).toNat := by
  rw [sub?, combine?_eq_some_iff fun x => Word.sub?_eq_some_iff.mpr (Nat.zero_add _)]
  simp only [Word.sub?_eq_some_iff]

theorem add?_eq_none_iff {a b : Coins} :
    a.add? b = none ↔ ∃ d, UInt64.size ≤ (a.amountOf d).toNat + (b.amountOf d).toNat := by
  rw [add?, combine?_eq_none_iff fun x => Word.add?_eq_some_iff.mpr (Nat.add_zero _)]
  simp only [Word.add?_eq_none_iff]

theorem sub?_eq_none_iff {a b : Coins} :
    a.sub? b = none ↔ ∃ d, (a.amountOf d).toNat < (b.amountOf d).toNat := by
  rw [sub?, combine?_eq_none_iff fun x => Word.sub?_eq_some_iff.mpr (Nat.zero_add _)]
  simp only [Word.sub?_eq_none_iff]

theorem exists_add?_iff {a b : Coins} :
    (∃ c, a.add? b = some c) ↔ ∀ d, (a.amountOf d).toNat + (b.amountOf d).toNat < UInt64.size := by
  rw [← Option.ne_none_iff_exists', Ne, add?_eq_none_iff]
  simp only [not_exists, Nat.not_le]

theorem exists_sub?_iff {a b : Coins} :
    (∃ c, a.sub? b = some c) ↔ ∀ d, b.amountOf d ≤ a.amountOf d := by
  rw [← Option.ne_none_iff_exists', Ne, sub?_eq_none_iff]
  simp only [not_exists, Nat.not_lt, UInt64.le_iff_toNat_le]

theorem covers_iff {a b : Coins} : a.covers b = true ↔ ∀ d, b.amountOf d ≤ a.amountOf d := by
  rw [covers, List.all_eq_true]
  constructor
  · intro h d
    cases hd : b.amounts.get? d with
    | none => simp [amountOf, hd]
    | some n =>
      have := of_decide_eq_true (h (d, n) ((OrderedMap.mem_entries_iff _ _ _).mpr hd))
      simpa [amountOf, hd] using this
  · intro h e he
    have hd := (OrderedMap.mem_entries_iff _ _ _).mp he
    exact decide_eq_true (by simpa [amountOf, hd] using h e.1)

/-- A denomination is new to a map and to the coins that are still to be bound. -/
theorem collect_eq_ok {m : OrderedMap String UInt64} {cs : List Coin}
    (hv : ∀ c ∈ cs, validDenom c.denom = true) (hm : ∀ c ∈ cs, m.get? c.denom = none)
    (hd : cs.Pairwise fun c d => c.denom ≠ d.denom) :
    collect m cs = .ok (cs.foldl (fun m c => m.insert c.denom c.amount) m) := by
  induction cs generalizing m with
  | nil => rfl
  | cons c cs ih =>
    obtain ⟨hc, hd⟩ := List.pairwise_cons.mp hd
    have hn : m.contains c.denom = false := by simp [OrderedMap.contains, hm c (by simp)]
    simp only [collect, hv c (by simp), hn, Bool.not_true, Bool.false_eq_true, ↓reduceIte]
    refine ih (fun e he => hv e (List.mem_cons_of_mem c he)) (fun e he => ?_) hd
    rw [OrderedMap.get?_insert, if_neg (hc e he).symm, hm e (List.mem_cons_of_mem c he)]

theorem ofAmounts_amounts (a : Coins) : ofAmounts a.amounts = a :=
  ext_amountOf fun d => by rw [amountOf_ofAmounts, amountOf]

/-- A coin set is the set of its coins, if they are coins that may be listed. -/
theorem ofList_toList {a : Coins} (h : ∀ c ∈ a.toList, validDenom c.denom = true) :
    ofList a.toList = .ok a := by
  have hd : a.toList.Pairwise fun c d => c.denom ≠ d.denom := by
    refine List.pairwise_map.mpr (a.amounts.ascending.imp fun {e f} hlt heq => ?_)
    have heq : e.1 = f.1 := heq
    simp [heq] at hlt
  have hm : a.toList.foldl (fun m c => m.insert c.denom c.amount) ∅ = a.amounts := by
    rw [toList, List.foldl_map]
    exact OrderedMap.ofList_entries a.amounts
  rw [ofList, collect_eq_ok h (by simp) hd, hm, Except.map, ofAmounts_amounts]

end Coins
end Appchain
