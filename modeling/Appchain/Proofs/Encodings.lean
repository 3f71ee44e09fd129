import Appchain.Genesis.Document
import Appchain.Proofs.TaggedValues

/-!
# Stored values read back

What a store holds is decoded again by whoever looks it up. A coin set reads back
when its denominations may be listed (`Coins.Valid`), and so does everything that
carries coins; sums and differences of valid coin sets are valid.
-/

namespace Appchain

namespace Coins

/-- Every denomination of the set may be listed. -/
def Valid (a : Coins) : Prop := ∀ denom, a.amountOf denom ≠ 0 → validDenom denom = true

theorem Valid.denoms {a : Coins} (h : a.Valid) : ∀ c ∈ a.toList, validDenom c.denom = true := by
  intro c hc
  obtain ⟨e, he, rfl⟩ := List.mem_map.mp hc
  apply h e.1
  rw [amountOf, (OrderedMap.mem_entries_iff _ _ _).mp he]
  exact a.positive e he

theorem valid_empty : empty.Valid := by
  intro denom h
  exact absurd rfl h

theorem valid_single {denom : String} (h : validDenom denom = true) (n : UInt64) :
    (single denom n).Valid := by
  intro d hd
  unfold single at hd
  rw [amountOf_ofAmounts, OrderedMap.get?_insert] at hd
  by_cases he : d = denom
  · rw [he]
    exact h
  · rw [if_neg he] at hd
    exact absurd rfl hd

theorem amountOf_single (denom d : String) (n : UInt64) :
    (single denom n).amountOf d = if d = denom then n else 0 := by
  unfold single
  rw [amountOf_ofAmounts, OrderedMap.get?_insert]
  split <;> rfl

theorem eq_empty_of_isEmpty {a : Coins} (h : a.isEmpty = true) : a = empty := by
  have hm : a.amounts.entries = [] := List.isEmpty_iff.mp h
  apply ext_amountOf
  intro d
  unfold amountOf OrderedMap.get?
  rw [hm]
  rfl

/-- A list of one coin makes that coin alone. -/
theorem eq_single_of_ofList {c : Coin} {a : Coins} (h : ofList [c] = .ok a) :
    a = single c.denom c.amount := by
  unfold ofList collect at h
  split at h
  · cases h
  · split at h
    · cases h
    · cases h
      rfl

theorem Valid.add {a b c : Coins} (ha : a.Valid) (hb : b.Valid) (h : a.add? b = some c) :
    c.Valid := by
  intro d hd
  have hs := add?_eq_some_iff.mp h d
  by_cases h0 : a.amountOf d = 0
  · refine hb d fun h1 => hd ?_
    rw [h0, h1] at hs
    exact (UInt64.toNat.inj hs).symm
  · exact ha d h0

theorem Valid.sub {a b c : Coins} (ha : a.Valid) (h : a.sub? b = some c) : c.Valid := by
  intro d hd
  have hs := sub?_eq_some_iff.mp h d
  refine ha d fun h0 => hd (UInt64.toNat.inj ?_)
  rw [h0] at hs
  simp only [UInt64.toNat_zero] at hs ⊢
  omega

theorem valid_of_collect {m n : OrderedMap String UInt64} {cs : List Coin}
    (hm : ∀ d, m.get? d ≠ none → validDenom d = true) (h : collect m cs = .ok n) :
    ∀ d, n.get? d ≠ none → validDenom d = true := by
  induction cs generalizing m with
  | nil =>
    cases h
    exact hm
  | cons c cs ih =>
    unfold collect at h
    split at h
    · cases h
    · next hv =>
      split at h
      · cases h
      · refine ih ?_ h
        intro d hd
        rw [OrderedMap.get?_insert] at hd
        by_cases he : d = c.denom
        · rw [he]
          simpa using hv
        · rw [if_neg he] at hd
          exact hm d hd

theorem valid_ofList {cs : List Coin} {a : Coins} (h : ofList cs = .ok a) : a.Valid := by
  unfold ofList at h
  cases hc : collect ∅ cs with
  | error f =>
    rw [hc] at h
    cases h
  | ok m =>
    rw [hc] at h
    cases h
    intro d hd
    refine valid_of_collect (fun e he => absurd rfl he) hc d fun hn => hd ?_
    rw [amountOf_ofAmounts, hn]
    rfl

end Coins

open Wire (portable_word portable_text portable_optionalText)

theorem Address.portable (n : Nat) (a : Address) : Address.wire.Portable n a :=
  (portable_text n a.hex).refine a.check_hex

theorem Coin.portable (n : Nat) (c : Coin) : Coin.wire.Portable (n + 1) c :=
  (((portable_text n _).field _ _).append ((portable_word n _).field _ _) (by decide)).record rfl

theorem Coins.portable (n : Nat) {a : Coins} (h : a.Valid) : Coins.wire.Portable (n + 2) a := by
  refine Wire.Portable.refine (.list fun c _ => c.portable n) ?_
  rw [Coins.ofList_toList h.denoms]
  rfl

theorem Packet.portable (n : Nat) {p : Packet} (h : p.coins.Valid) :
    Packet.wire.Portable (n + 3) p :=
  (((((Address.portable _ _).field _ _).append ((Address.portable _ _).field _ _)
    (by decide)).append ((Coins.portable n h).field _ _) (by decide)).append
    ((portable_text _ _).field _ _) (by decide)).append
    ((portable_text _ _).field _ _) (by decide) |>.record rfl

theorem Bond.portable (n : Nat) (b : Bond) : Bond.wire.Portable (n + 1) b :=
  ((((Address.portable n _).field _ _).append ((portable_text _ _).field _ _) (by decide)).append
    ((portable_word _ _).field _ _) (by decide)).record rfl

theorem BaseAccount.portable (n : Nat) {a : BaseAccount} (h : a.coins.Valid) :
    BaseAccount.wire.Portable (n + 3) a :=
  (((((Address.portable _ _).field _ _).append ((Coins.portable n h).field _ _)
    (by decide)).append ((portable_optionalText _ _).field _ _) (by decide)).append
    ((portable_word _ _).field _ _) (by decide)).append
    ((portable_word _ _).field _ _) (by decide) |>.record rfl

theorem NamedAccount.portable (n : Nat) {a : NamedAccount} (h : a.base.coins.Valid) :
    NamedAccount.wire.Portable (n + 4) a :=
  (((portable_text _ _).field _ _).append ((BaseAccount.portable n h).field _ _)
    (by decide)).record rfl

theorem Account.recovers {a : Account} (h : a.coins.Valid) : Tagged.Recovers a := by
  cases a with
  | plain b => exact .of_wire rfl rfl (BaseAccount.portable 1 h)
  | named n => exact .of_wire rfl rfl (NamedAccount.portable 0 h)

namespace Account

/-- An account as it is stored. -/
def bytes (a : Account) : Bytes := taggedBytes.write (a.tag, a.body.bytes)

theorem toBytes_eq (a : Account) : TypeRegistry.standard.toBytes a = .ok a.bytes :=
  TypeRegistry.toBytes_eq (TypeRegistry.isRegistered_account a)

theorem ofBytes_bytes {a : Account} (h : a.coins.Valid) :
    TypeRegistry.standard.ofBytes a.bytes = .ok a :=
  TypeRegistry.ofBytes_write (TypeRegistry.isRegistered_account a) (recovers h)

end Account
end Appchain
