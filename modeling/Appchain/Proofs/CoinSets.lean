import Appchain.Proofs.DecodedCoins

/-!
# Coin sets and their arithmetic

A coin set is the list of its coins in canonical form, and there is one for every
such list. It is fixed by its amounts, which can be found by halving because the
coins ascend. Sums and differences exist exactly where every amount fits its word,
and sums may be taken in any order.
-/

namespace Appchain

open Outcome

theorem compare_eq_lt_iff {s t : String} : compare s t = .lt ↔ s < t := by
  change compareOfLessAndEq s t = .lt ↔ s < t
  unfold compareOfLessAndEq
  split
  · next h => exact iff_of_true rfl h
  · next h => split <;> exact iff_of_false nofun h

section Refined

variable {α β : Type} {view : β → α} {check : α → Except Fault β} {text : Bytes} {b : β}

theorem Json.Shape.decode_eq_ok {s : Shape α} {a : α} :
    s.decode text = .ok a ↔ s.read (Doc.parse text).1 = .ok a ∧ (Doc.parse text).2 = true := by
  unfold decode
  simp only
  cases s.read (Doc.parse text).1 with
  | error f => simp
  | ok x => cases (Doc.parse text).2 <;> simp

theorem Json.Shape.decode_refine_eq_ok {s : Shape α} :
    (s.refine view check).decode text = .ok b ↔ ∃ a, s.decode text = .ok a ∧ check a = .ok b := by
  simp only [decode_eq_ok]
  change (s.read (Doc.parse text).1 >>= check) = .ok b ∧ _ ↔ _
  rw [bind_eq_ok]
  constructor
  · rintro ⟨⟨a, ha, hc⟩, hp⟩
    exact ⟨a, ⟨ha, hp⟩, hc⟩
  · rintro ⟨a, ⟨ha, hp⟩, hc⟩
    exact ⟨⟨a, ha, hc⟩, hp⟩

theorem Layout.decode_refine_eq_ok {l : Layout α} :
    (l.refine view check).decode text = .ok b ↔ ∃ a, l.decode text = .ok a ∧ check a = .ok b := by
  unfold decode refine
  simp only
  cases l.read text with
  | error f => simp [Except.map]
  | ok r => cases hc : check r.1 <;> simp [Except.map, hc]

/-- A refined value is decoded if what it refines is decoded and passes the check. -/
theorem Wire.decode_refine_eq_ok {w : Wire α} {format : Format} :
    (w.refine view check).decode format text = .ok b ↔
      ∃ a, w.decode format text = .ok a ∧ check a = .ok b := by
  cases format with
  | json => exact Json.Shape.decode_refine_eq_ok
  | binary => exact Layout.decode_refine_eq_ok

end Refined

namespace Coins

/-- The coins ascend strictly by denomination, and none is worth nothing. -/
structure Canonical (cs : List Coin) : Prop where
  ascending : cs.Pairwise fun c d => c.denom < d.denom
  positive : ∀ c ∈ cs, c.amount ≠ 0

theorem canonical_toList (a : Coins) : Canonical a.toList where
  ascending := List.pairwise_map.mpr (a.amounts.ascending.imp fun h => compare_eq_lt_iff.mp h)
  positive := List.forall_mem_map.mpr a.positive

/-- Any coins in canonical form are those of a coin set. -/
theorem exists_toList_eq {cs : List Coin} (h : Canonical cs) : ∃ a : Coins, a.toList = cs := by
  refine ⟨⟨⟨cs.map fun c => (c.denom, c.amount), ?_⟩, ?_⟩, ?_⟩
  · exact List.pairwise_map.mpr (h.ascending.imp fun h => compare_eq_lt_iff.mpr h)
  · exact List.forall_mem_map.mpr h.positive
  · rw [toList, List.map_map]
    exact List.map_id cs

theorem mem_toList_iff {a : Coins} {c : Coin} :
    c ∈ a.toList ↔ a.amounts.get? c.denom = some c.amount := by
  rw [← OrderedMap.mem_entries_iff, toList, List.mem_map]
  constructor
  · rintro ⟨e, he, rfl⟩
    exact he
  · intro h
    exact ⟨_, h, rfl⟩

/-! Look-ups by halving. -/

section Search

variable {cs : List Coin} {denom : String}

/-- The amount of a denomination among the coins from `lo` to `hi`. -/
def bisect (cs : List Coin) (denom : String) (lo hi : Nat) (h : hi ≤ cs.length) : UInt64 :=
  if hlt : lo < hi then
    let middle := lo + (hi - lo) / 2
    have hmiddle : middle < cs.length := by omega
    match compare denom cs[middle].denom with
    | .eq => cs[middle].amount
    | .lt => bisect cs denom lo middle (Nat.le_of_lt hmiddle)
    | .gt => bisect cs denom (middle + 1) hi h
  else 0
termination_by hi - lo

def search (cs : List Coin) (denom : String) : UInt64 := bisect cs denom 0 cs.length (Nat.le_refl _)

/-- A coin within the window is found. -/
theorem bisect_eq_amount (hs : cs.Pairwise fun c d => c.denom < d.denom) {lo hi i : Nat}
    (h : hi ≤ cs.length) (hi' : i < cs.length) (hd : cs[i].denom = denom) (hlo : lo ≤ i)
    (hhi : i < hi) : bisect cs denom lo hi h = cs[i].amount := by
  have hmono := List.pairwise_iff_getElem.mp hs
  fun_induction bisect cs denom lo hi h with
  | case1 lo hi h hlt middle hmiddle heq =>
    have he : cs[i].denom = cs[middle].denom := hd.trans (Std.LawfulEqCmp.eq_of_compare heq)
    have him : i = middle := by
      rcases Nat.lt_trichotomy i middle with hlt | heq | hgt
      · exact absurd (he ▸ hmono i middle hi' hmiddle hlt) (String.lt_irrefl _)
      · exact heq
      · exact absurd (he ▸ hmono middle i hmiddle hi' hgt) (String.lt_irrefl _)
    simp only [him]
  | case2 lo hi h hlt middle hmiddle hbefore ih =>
    -- The denomination is before the middle one, so its coin is.
    have hbefore : cs[i].denom < cs[middle].denom := hd ▸ compare_eq_lt_iff.mp hbefore
    refine ih hlo (Nat.lt_of_not_le fun hle => ?_)
    rcases Nat.lt_or_eq_of_le hle with hlt | heq
    · exact String.lt_irrefl _ (String.lt_trans hbefore (hmono middle i hmiddle hi' hlt))
    · simp only [heq] at hbefore
      exact String.lt_irrefl _ hbefore
  | case3 lo hi h hlt middle hmiddle hafter ih =>
    have hafter : cs[middle].denom < cs[i].denom :=
      hd ▸ compare_eq_lt_iff.mp (Std.OrientedCmp.gt_iff_lt.mp hafter)
    refine ih (Nat.lt_of_not_le fun hle => ?_) hhi
    rcases Nat.lt_or_eq_of_le hle with hlt | heq
    · exact String.lt_irrefl _ (String.lt_trans hafter (hmono i middle hi' hmiddle hlt))
    · simp only [heq] at hafter
      exact String.lt_irrefl _ hafter
  | case4 lo hi h hlt => exact absurd (Nat.lt_of_le_of_lt hlo hhi) hlt

/-- Nothing is found of a denomination that is not there. -/
theorem bisect_eq_zero (hd : ∀ c ∈ cs, c.denom ≠ denom) {lo hi : Nat} (h : hi ≤ cs.length) :
    bisect cs denom lo hi h = 0 := by
  fun_induction bisect cs denom lo hi h with
  | case1 lo hi h hlt middle hmiddle heq =>
    exact absurd (Std.LawfulEqCmp.eq_of_compare heq).symm (hd _ (List.getElem_mem hmiddle))
  | case2 lo hi h hlt middle hmiddle heq ih => exact ih
  | case3 lo hi h hlt middle hmiddle heq ih => exact ih
  | case4 => rfl

/-- Halving finds the amount of any denomination in a coin set. -/
theorem search_toList (a : Coins) (denom : String) : search a.toList denom = a.amountOf denom := by
  unfold search amountOf
  cases hg : a.amounts.get? denom with
  | none =>
    refine bisect_eq_zero (fun c hc hd => ?_) _
    rw [mem_toList_iff, hd, hg] at hc
    cases hc
  | some n =>
    have hm : (⟨denom, n⟩ : Coin) ∈ a.toList := mem_toList_iff.mpr hg
    obtain ⟨i, hi, he⟩ := List.getElem_of_mem hm
    rw [bisect_eq_amount a.canonical_toList.ascending _ hi (congrArg Coin.denom he)
      (Nat.zero_le i) hi, he]
    rfl

end Search

/-! Coins that are listed. -/

section Lists

variable {cs : List Coin} {a : Coins}

/-- The coins by their denominations. -/
def tagged (cs : List Coin) : List (String × UInt64) := cs.map fun c => (c.denom, c.amount)

theorem of_collect_eq_ok {m n : OrderedMap String UInt64} (h : collect m cs = .ok n) :
    (∀ c ∈ cs, validDenom c.denom = true ∧ m.get? c.denom = none) ∧ (cs.map Coin.denom).Nodup := by
  induction cs generalizing m with
  | nil => exact ⟨nofun, .nil⟩
  | cons c cs ih =>
    unfold collect at h
    obtain ⟨hvalid, h⟩ := guard_eq_ok.mp h
    obtain ⟨hfresh, h⟩ := guard_eq_ok.mp h
    obtain ⟨hall, hnodup⟩ := ih h
    have hother : ∀ d ∈ cs, d.denom ≠ c.denom ∧ m.get? d.denom = none := by
      intro d hd
      have hget := (hall d hd).2
      rw [OrderedMap.get?_insert] at hget
      split at hget
      · cases hget
      · next hne => exact ⟨hne, hget⟩
    refine ⟨List.forall_mem_cons.mpr ⟨⟨by simpa using hvalid, ?_⟩, fun d hd => ?_⟩, ?_⟩
    · simpa [OrderedMap.contains] using hfresh
    · exact ⟨(hall d hd).1, (hother d hd).2⟩
    · refine List.nodup_cons.mpr ⟨fun hm => ?_, hnodup⟩
      obtain ⟨d, hd, he⟩ := List.mem_map.mp hm
      exact (hother d hd).1 he

/-- A list makes a coin set if its denominations are valid and distinct. -/
theorem ofList_eq_ok_iff : ofList cs = .ok a ↔ (∀ c ∈ cs, validDenom c.denom = true) ∧
    (cs.map Coin.denom).Nodup ∧ a = ofAmounts (.ofList (tagged cs)) := by
  unfold ofList
  rw [map_eq_ok]
  constructor
  · rintro ⟨m, hm, rfl⟩
    obtain ⟨hall, hnodup⟩ := of_collect_eq_ok hm
    have hvalid : ∀ c ∈ cs, validDenom c.denom = true := fun c hc => (hall c hc).1
    rw [collect_eq_ok hvalid (fun _ _ => rfl) (List.pairwise_map.mp hnodup)] at hm
    cases hm
    refine ⟨hvalid, hnodup, ?_⟩
    rw [tagged, OrderedMap.ofList, List.foldl_map]
  · rintro ⟨hvalid, hnodup, rfl⟩
    refine ⟨_, collect_eq_ok hvalid (fun _ _ => rfl) (List.pairwise_map.mp hnodup), ?_⟩
    rw [tagged, OrderedMap.ofList, List.foldl_map]

theorem perm_entries_ofList (hd : (cs.map Coin.denom).Nodup) :
    (OrderedMap.ofList (tagged cs)).entries.Perm (tagged cs) := by
  apply OrderedMap.perm_ofList
  rw [tagged, List.map_map]
  exact hd

/-- The set has the coins that have been listed, but for those that are worth nothing. -/
theorem perm_toList (h : ofList cs = .ok a) : a.toList.Perm (cs.filter fun c => c.amount ≠ 0) := by
  obtain ⟨-, hnodup, rfl⟩ := ofList_eq_ok_iff.mp h
  have hp := ((perm_entries_ofList hnodup).filter fun e => e.2 ≠ 0).map fun e => Coin.mk e.1 e.2
  rw [tagged, List.filter_map, List.map_map] at hp
  exact hp.trans (.of_eq (List.map_id _))

theorem amountOf_eq_amount (h : ofList cs = .ok a) {c : Coin} (hc : c ∈ cs) :
    a.amountOf c.denom = c.amount := by
  obtain ⟨-, hnodup, rfl⟩ := ofList_eq_ok_iff.mp h
  have hm : (c.denom, c.amount) ∈ (OrderedMap.ofList (tagged cs)).entries :=
    (perm_entries_ofList hnodup).mem_iff.mpr (List.mem_map.mpr ⟨c, hc, rfl⟩)
  rw [amountOf_ofAmounts, (OrderedMap.mem_entries_iff ..).mp hm]
  rfl

/-- What is decoded is a list of coins that makes the set. -/
theorem decode_eq_ok_iff {format : Format} {text : Bytes} :
    wire.decode format text = .ok a ↔
      ∃ cs, Coin.wire.list.decode format text = .ok cs ∧ ofList cs = .ok a := by
  rw [wire, Wire.decode_refine_eq_ok]
  simp only [mapError_eq_ok]

end Lists

/-! Sums and differences. -/

section Sums

variable {a b c s : Coins}

theorem add?_comm (a b : Coins) : a.add? b = b.add? a := by
  apply Option.ext
  intro s
  rw [add?_eq_some_iff, add?_eq_some_iff]
  simp only [Nat.add_comm]

/-- Three sets have a sum if each denomination has one. -/
theorem add?_bind_eq_some_iff : ((a.add? b).bind fun t => t.add? c) = some s ↔
    ∀ d, (a.amountOf d).toNat + (b.amountOf d).toNat + (c.amountOf d).toNat =
      (s.amountOf d).toNat := by
  rw [Option.bind_eq_some_iff]
  constructor
  · rintro ⟨t, ht, hs⟩ d
    rw [add?_eq_some_iff.mp ht d, add?_eq_some_iff.mp hs d]
  · intro h
    obtain ⟨t, ht⟩ : ∃ t, a.add? b = some t := by
      refine exists_add?_iff.mpr fun d => Nat.lt_of_le_of_lt ?_ (s.amountOf d).toNat_lt_size
      rw [← h d]
      exact Nat.le_add_right _ _
    refine ⟨t, ht, add?_eq_some_iff.mpr fun d => ?_⟩
    rw [← add?_eq_some_iff.mp ht d, h d]

theorem add?_assoc (a b c : Coins) :
    ((a.add? b).bind fun t => t.add? c) = (b.add? c).bind fun t => a.add? t := by
  apply Option.ext
  intro s
  have hc : ((b.add? c).bind fun t => a.add? t) = (b.add? c).bind fun t => t.add? a :=
    congrArg _ (funext fun t => add?_comm a t)
  rw [hc, add?_bind_eq_some_iff, add?_bind_eq_some_iff]
  refine forall_congr' fun d => ?_
  rw [Nat.add_comm ((b.amountOf d).toNat + _), Nat.add_assoc]

theorem sub?_of_add? (h : a.add? b = some s) : s.sub? b = some a := by
  refine sub?_eq_some_iff.mpr fun d => ?_
  rw [← add?_eq_some_iff.mp h d, Nat.add_comm]

end Sums

/-- What sums and differences of two coin sets are. -/
structure Exact (a b : Coins) : Prop where
  exists_sum : (∃ s, a.add? b = some s) ↔ ∀ d, (a.amountOf d).toNat + (b.amountOf d).toNat < 2 ^ 64
  sum : ∀ s, a.add? b = some s →
    ∀ d, (s.amountOf d).toNat = (a.amountOf d).toNat + (b.amountOf d).toNat
  exists_difference : (∃ s, a.sub? b = some s) ↔ a.covers b = true
  covers : a.covers b = true ↔ ∀ d, b.amountOf d ≤ a.amountOf d
  difference : ∀ s, a.sub? b = some s →
    ∀ d, (s.amountOf d).toNat = (a.amountOf d).toNat - (b.amountOf d).toNat
  comm : a.add? b = b.add? a
  cancel : ∀ s, a.add? b = some s → s.sub? b = some a

theorem exact (a b : Coins) : Exact a b where
  exists_sum := exists_add?_iff
  sum s h d := (add?_eq_some_iff.mp h d).symm
  exists_difference := exists_sub?_iff.trans covers_iff.symm
  covers := covers_iff
  difference s h d := by
    have hd := sub?_eq_some_iff.mp h d
    omega
  comm := add?_comm a b
  cancel _ h := sub?_of_add? h

/-- Coin sets are the lists of coins in canonical form. They are told apart by their amounts, which
halving finds. A list makes one, also when it is decoded, if its denominations are valid and
distinct, and then it has the coins that are listed. Sums and differences are exact where there
are any, and it does not matter in which order sums are taken, also where there are none. -/
theorem canonical_and_exact :
    (∀ cs, (∃ a : Coins, a.toList = cs) ↔ Canonical cs) ∧
    (∀ a b : Coins, a = b ↔ ∀ d, a.amountOf d = b.amountOf d) ∧
    (∀ (a : Coins) d, search a.toList d = a.amountOf d) ∧
    (∀ cs, (∃ a, ofList cs = .ok a) ↔
      (∀ c ∈ cs, validDenom c.denom = true) ∧ (cs.map Coin.denom).Nodup) ∧
    (∀ cs a, ofList cs = .ok a → a.toList.Perm (cs.filter fun c => c.amount ≠ 0) ∧
      ∀ c ∈ cs, a.amountOf c.denom = c.amount) ∧
    (∀ format text a, wire.decode format text = .ok a ↔
      ∃ cs, Coin.wire.list.decode format text = .ok cs ∧ ofList cs = .ok a) ∧
    (∀ a b, Exact a b) ∧
    ∀ a b c : Coins, ((a.add? b).bind fun t => t.add? c) = (b.add? c).bind fun t => a.add? t := by
  refine ⟨fun cs => ⟨?_, exists_toList_eq⟩, fun a b => ⟨?_, ext_amountOf⟩, search_toList,
    fun cs => ⟨?_, ?_⟩, fun cs a h => ⟨perm_toList h, fun c => amountOf_eq_amount h⟩,
    fun format text a => decode_eq_ok_iff, exact, add?_assoc⟩
  · rintro ⟨a, rfl⟩
    exact canonical_toList a
  · rintro rfl d
    rfl
  · rintro ⟨a, h⟩
    obtain ⟨hvalid, hnodup, -⟩ := ofList_eq_ok_iff.mp h
    exact ⟨hvalid, hnodup⟩
  · rintro ⟨hvalid, hnodup⟩
    exact ⟨_, ofList_eq_ok_iff.mpr ⟨hvalid, hnodup, rfl⟩⟩

namespace Sample

def listed : List Coin := [⟨"steak", 5⟩, ⟨"atom", 0⟩, ⟨"pow", 3⟩]

end Sample

/-- A listed coin of no worth is dropped, and a sum may come up to the greatest word, not beyond. -/
theorem canonical_and_exact_listed :
    ∃ a s, ofList Sample.listed = .ok a ∧ a.amountOf "atom" = 0 ∧ a.amountOf "pow" = 3 ∧
      a.toList.Perm [⟨"steak", 5⟩, ⟨"pow", 3⟩] ∧
      a.add? (single "pow" (Word.maximum - 3)) = some s ∧
      (s.amountOf "pow").toNat = 2 ^ 64 - 1 ∧ s.sub? (single "pow" (Word.maximum - 3)) = some a ∧
      a.add? (single "pow" (Word.maximum - 2)) = none := by
  obtain ⟨-, -, -, hlist, hlisted, -, hexact, -⟩ := canonical_and_exact
  obtain ⟨a, ha⟩ := (hlist Sample.listed).mpr ⟨by decide, by decide⟩
  obtain ⟨hperm, hamount⟩ := hlisted _ a ha
  have hpow : a.amountOf "pow" = 3 := hamount ⟨"pow", 3⟩ (by decide)
  have hother : ∀ d n, d ≠ "pow" → (single "pow" n).amountOf d = 0 := fun d n hd => by
    rw [amountOf_single, if_neg hd]
  obtain ⟨s, hs⟩ := (hexact a (single "pow" (Word.maximum - 3))).exists_sum.mpr fun d => by
    by_cases hd : d = "pow"
    · subst hd
      rw [hpow]
      decide
    · rw [hother d _ hd]
      exact (a.amountOf d).toNat_lt
  refine ⟨a, s, ha, hamount ⟨"atom", 0⟩ (by decide), hpow, hperm, hs, ?_, (hexact _ _).cancel s hs,
    ?_⟩
  · rw [(hexact _ _).sum s hs, hpow]
    decide
  · refine Option.eq_none_iff_forall_ne_some.mpr fun t ht => ?_
    have hlt := (hexact _ _).exists_sum.mp ⟨t, ht⟩ "pow"
    rw [hpow] at hlt
    exact absurd hlt (by decide)

end Coins
end Appchain
