import Appchain.Proofs.AcceptedSignatures

/-!
# Admissions

Whether a transaction is admitted can be told from the state before: it keeps to the
limits, every signer has an account that accepts the signature at the same place, and the
first signer can pay the fee. What is admitted changes the signers' accounts and the
collected fees, and nothing else.
-/

namespace Appchain

open Layout Outcome

namespace Context

variable {c d : Context} {before total : Coins} {p : AuthParameters}

/-- The fees that have been collected. -/
def collected (c : Context) : Except Fault Coins :=
  (c.stored? .fees Coins.wire.binary Fees.key).map fun total => total.getD .empty

def parameter (c : Context) (path : Bytes) : Except Fault (Option UInt64) :=
  ((c.contents .parameters).get? path).mapM Json.Shape.word.decode

/-- The limits of transactions. -/
def limits (c : Context) : Except Fault AuthParameters := do
  let memo ← c.parameter Accounts.memoPath
  let signatures ← c.parameter Accounts.signaturesPath
  return ⟨memo.getD AuthParameters.initial.maximumMemo,
    signatures.getD AuthParameters.initial.maximumSignatures⟩

/-- The context after the collected fees have been stored. -/
def withFees (c : Context) (total : Coins) : Context :=
  c.wrote .fees Fees.key (Coins.wire.binary.write total)

theorem account?_withFees (c : Context) (total : Coins) (a : Address) :
    (c.withFees total).account? a = c.account? a := by
  unfold account? withFees
  rw [c.contents_wrote_of_ne (by decide)]

theorem collected_withFees (c : Context) (h : total.Valid) :
    (c.withFees total).collected = .ok total := by
  unfold collected withFees
  rw [stored?_wrote_self (Coins.portable 0 h).binary]
  rfl

/-- What has been decoded may be listed. -/
theorem valid_of_collected (h : c.collected = .ok before) : before.Valid := by
  obtain ⟨stored, hs, rfl⟩ := map_eq_ok.mp h
  unfold stored? at hs
  cases hb : (c.contents .fees).get? Fees.key with
  | none =>
    rw [hb] at hs
    cases hs
    exact Coins.valid_empty
  | some b =>
    rw [hb, Option.mapM_some] at hs
    obtain ⟨x, hx, hs⟩ := map_eq_ok.mp hs
    cases hs
    exact Coins.yields_valid.binary.decode hx

/-- The place of the collected fees. -/
def feePlace : String × Bytes := (StoreKey.fees.name, Fees.key)

theorem feePlace_ne_placeOf (a : Address) : feePlace ≠ placeOf a := by
  intro h
  exact absurd (Prod.mk.inj h).1 (by decide)

theorem ChangesOnly.collected_eq {places : List (String × Bytes)} (h : c.ChangesOnly places d)
    (hp : feePlace ∉ places) : d.collected = c.collected := by
  unfold collected stored?
  rw [h.elsewhere .fees Fees.key hp]

theorem collected_withAccount (c : Context) (x : Account) :
    (c.withAccount x).collected = c.collected := by
  have hchanges : c.ChangesOnly [placeOf x.address] (c.withAccount x) :=
    (ChangesOnly.refl c).wrote (List.mem_singleton.mpr rfl) x.bytes
  exact hchanges.collected_eq (List.mem_singleton.not.mpr (feePlace_ne_placeOf x.address))

/-- All that is looked at before the messages of a transaction can be read, and every sequence has
a next one. -/
structure Screens (c : Context) (p : AuthParameters) (before : Coins) : Prop where
  accounts : c.ReadsAccounts
  sequences : ∀ a x, c.account? a = some x → x.sequence.toNat + 1 < UInt64.size
  opensFees : c.Opens .fees
  fees : c.collected = .ok before
  opensParameters : c.Opens .parameters
  limits : c.limits = .ok p

end Context

open Context Exec

theorem Subspace.run_get? {c : Context} (h : c.Opens .parameters) (s : Subspace) (key : String)
    {a : Option UInt64} (ha : c.parameter (s.root ++ Bytes.ofString key) = .ok a) :
    (s.get? .word key).run.run c = (.ok a, c) := by
  obtain ⟨v, hv, -, hc⟩ := h.view
  unfold get?
  rw [run_bind_ok (run_view _ c |>.trans (by rw [hv]; rfl))]
  apply run_decoded
  change (v.get (s.root ++ Bytes.ofString key)).mapM _ = _
  rw [View.get_eq_contents, hc]
  exact ha

theorem Accounts.run_parameters {c : Context} {p : AuthParameters} (h : c.Opens .parameters)
    (hp : c.limits = .ok p) : parameters.run.run c = (.ok p, c) := by
  obtain ⟨memo, hm, hp⟩ := bind_eq_ok.mp hp
  obtain ⟨signatures, hs, hp⟩ := bind_eq_ok.mp hp
  cases hp
  unfold parameters
  rw [run_bind_ok (subspace.run_get? h memoKey hm),
    run_bind_ok (subspace.run_get? h signaturesKey hs)]
  rfl

theorem Fees.run_add {c : Context} {before : Coins} (h : c.Opens .fees)
    (hb : c.collected = .ok before) (fee : Coins) :
    (add fee).run.run c =
      match before.add? fee with
      | some total => (.ok total, c.withFees total)
      | none => (.error (.invalidCoins .feesOverflow), c) := by
  obtain ⟨stored, hs, rfl⟩ := map_eq_ok.mp hb
  unfold add collected
  rw [run_bind_ok (run_bind_ok (run_load_of_opens h hs) |>.trans rfl)]
  cases ht : (stored.getD .empty).add? fee with
  | none => rfl
  | some total =>
    simp only [set]
    rw [run_bind_ok (run_save_of_opens h _ _ _)]
    rfl

namespace Admission

open Transaction (mem_signed_iff)

variable {c d : Context} {p : AuthParameters} {before fee : Coins} {a payer : Address}
  {x : Account} {g : Signature} {t : Transaction}

theorem run_charge_eq_ok (h : c.ReadsAccounts) (hf : c.Opens .fees) (hb : c.collected = .ok before)
    (hne : fee.isEmpty = false) : (charge payer fee).run.run c = (.ok (), d) ↔
      ∃ x rest total, c.account? payer = some x ∧ x.coins.sub? fee = some rest ∧
        before.add? fee = some total ∧ d = (c.withAccount (x.withCoins rest)).withFees total := by
  unfold charge
  rw [hne, if_neg Bool.false_ne_true, run_bind_eq_ok]
  constructor
  · rintro ⟨x, c', hx, hrun⟩
    obtain ⟨hx, rfl⟩ := (run_account_eq_ok h).mp hx
    cases hr : x.coins.sub? fee with
    | none =>
      rw [hr] at hrun
      cases hrun
    | some rest =>
      simp only [hr] at hrun
      rw [run_bind_ok (Accounts.run_put h.opens _)] at hrun
      obtain ⟨total, c'', hadd, hrun⟩ := run_bind_eq_ok.mp hrun
      rw [Fees.run_add (hf.withAccount _) ((c'.collected_withAccount _).trans hb)] at hadd
      cases ht : before.add? fee with
      | none =>
        rw [ht] at hadd
        cases hadd
      | some total =>
        rw [ht] at hadd
        cases hadd
        cases hrun
        exact ⟨x, rest, _, hx, hr, rfl, rfl⟩
  · rintro ⟨x, rest, total, hx, hr, ht, rfl⟩
    refine ⟨x, c, (run_account_eq_ok h).mpr ⟨hx, rfl⟩, ?_⟩
    simp only [hr]
    rw [run_bind_ok (Accounts.run_put h.opens _)]
    refine run_bind_eq_ok.mpr ⟨total, _, ?_, rfl⟩
    rw [Fees.run_add (hf.withAccount _) ((c.collected_withAccount _).trans hb), ht]

/-- The payer has as much less as has been collected more, and that is all. -/
structure Charged (c : Context) (payer : Address) (fee before : Coins) (d : Context) : Prop where
  affords : fee.isEmpty = false → c.Affords payer fee
  pays : ∀ x, c.account? payer = some x → ∃ rest, d.account? payer = some (x.withCoins rest) ∧
    ∀ e, (rest.amountOf e).toNat + (fee.amountOf e).toNat = (x.coins.amountOf e).toNat
  others : ∀ a, a ≠ payer → d.account? a = c.account? a
  fees : ∃ total, d.collected = .ok total ∧
    ∀ e, (total.amountOf e).toNat = (before.amountOf e).toNat + (fee.amountOf e).toNat
  changes : c.ChangesOnly (if fee.isEmpty then [] else [placeOf payer, feePlace]) d

theorem charged_of_run (h : c.ReadsAccounts) (hf : c.Opens .fees) (hb : c.collected = .ok before)
    (hrun : (charge payer fee).run.run c = (.ok (), d)) : Charged c payer fee before d := by
  cases hne : fee.isEmpty with
  | true =>
    have hzero := Coins.eq_empty_of_isEmpty hne
    unfold charge at hrun
    rw [hne, if_pos rfl] at hrun
    cases hrun
    subst hzero
    refine ⟨nofun, fun x hx => ⟨x.coins, ?_, fun _ => rfl⟩, fun _ _ => rfl,
      ⟨before, hb, fun _ => rfl⟩, .refl _⟩
    rw [hx, Account.withCoins_coins]
  | false =>
    obtain ⟨x, rest, total, hx, hr, ht, rfl⟩ := (run_charge_eq_ok h hf hb hne).mp hrun
    have hpayer : (x.withCoins rest).address = payer := by
      rw [Account.address_withCoins, h.address_eq hx]
    have hafford : c.Affords payer fee := affords_iff.mpr ⟨x, rest, hx, hr⟩
    constructor
    case affords => exact fun _ => hafford
    case pays =>
      intro y hy
      rw [hx] at hy
      cases hy
      refine ⟨rest, ?_, fun e => ?_⟩
      · rw [account?_withFees]
        refine c.account?_withAccount_self hpayer ?_
        rw [Account.coins_withCoins]
        exact (valid_of_account? hx).sub hr
      · rw [Nat.add_comm]
        exact Coins.sub?_eq_some_iff.mp hr e
    case others =>
      intro a ha
      rw [account?_withFees, c.account?_withAccount_of_ne (by rwa [hpayer])]
    case fees =>
      have htotal := (valid_of_collected hb).add hafford.valid ht
      exact ⟨total, collected_withFees _ htotal, fun e => (Coins.add?_eq_some_iff.mp ht e).symm⟩
    case changes =>
      rw [hne, if_neg Bool.false_ne_true]
      refine (ChangesOnly.wrote (.refl c) ?_ _).wrote ?_ _
      · rw [hpayer]
        exact List.mem_cons_self ..
      · exact List.mem_cons_of_mem _ (List.mem_singleton.mpr rfl)

theorem exists_run_charge (h : c.ReadsAccounts) (hf : c.Opens .fees) (hb : c.collected = .ok before)
    (hfee : fee.isEmpty = false → c.Affords payer fee ∧
      ∀ e, (before.amountOf e).toNat + (fee.amountOf e).toNat < UInt64.size) :
    ∃ d, (charge payer fee).run.run c = (.ok (), d) := by
  cases hne : fee.isEmpty with
  | true =>
    unfold charge
    rw [hne, if_pos rfl]
    exact ⟨c, rfl⟩
  | false =>
    obtain ⟨ha, hroom⟩ := hfee hne
    obtain ⟨x, rest, hx, hr⟩ := affords_iff.mp ha
    obtain ⟨total, ht⟩ := Coins.exists_add?_iff.mpr hroom
    exact ⟨_, (run_charge_eq_ok h hf hb hne).mpr ⟨x, rest, total, hx, hr, ht, rfl⟩⟩

/-! The transaction. -/

theorem checkLimits_eq_ok : checkLimits p t = .ok () ↔
    t.memo.length ≤ p.maximumMemo.toNat ∧ t.signatures.length = t.signers.length ∧
      t.signatures.length ≤ p.maximumSignatures.toNat := by
  unfold checkLimits
  simp only [guard_eq_ok, Decidable.not_not, Nat.not_lt, and_true]

theorem run_screen_eq_ok (h : c.Screens p before) (hp : t.signers.head? = some payer) :
    (screen t).run.run c = (.ok (), d) ↔ checkLimits p t = .ok () ∧
      ∃ m, (t.signed.forM fun e => authorize e.1 e.2).run.run c = (.ok (), m) ∧
        (charge payer t.fee.amount).run.run m = (.ok (), d) := by
  unfold screen
  rw [run_bind_ok (Accounts.run_parameters h.opensParameters h.limits), run_bind_eq_ok, hp]
  constructor
  · rintro ⟨⟨⟩, c', hlift, hrun⟩
    obtain ⟨hlimits, rfl⟩ := Prod.mk.inj hlift
    obtain ⟨⟨⟩, m, hsign, hrun⟩ := run_bind_eq_ok.mp hrun
    exact ⟨hlimits, m, hsign, hrun⟩
  · rintro ⟨hlimits, m, hsign, hrun⟩
    exact ⟨(), c, Prod.ext hlimits rfl, run_bind_eq_ok.mpr ⟨(), m, hsign, hrun⟩⟩

/-- By the state before, the transaction keeps to the limits, is signed by its signers, and its fee
can be paid and collected. -/
structure Admissible (c : Context) (p : AuthParameters) (before : Coins) (t : Transaction) :
    Prop where
  memo : t.memo.length ≤ p.maximumMemo.toNat
  count : t.signatures.length = t.signers.length
  limit : t.signatures.length ≤ p.maximumSignatures.toNat
  signed : ∀ (i : Nat) (a : Address) (g : Signature), t.signers[i]? = some a →
    t.signatures[i]? = some g → ∃ x key, c.account? a = some x ∧ Accepts a g x key
  fee : t.fee.amount.isEmpty = false → ∃ payer, t.signers.head? = some payer ∧
    c.Affords payer t.fee.amount ∧
    ∀ e, (before.amountOf e).toNat + (t.fee.amount.amountOf e).toNat < UInt64.size

/-- Every signer has its key recorded and the next sequence, the first one has paid the fee, the
fee has been collected, and that is all. -/
structure Admitted (c : Context) (before : Coins) (t : Transaction) (d : Context) : Prop where
  signers : ∀ (i : Nat) (a : Address) (g : Signature), t.signers[i]? = some a →
    t.signatures[i]? = some g → ∃ x key rest, c.account? a = some x ∧
      Hex.decode g.publicKey = .ok key ∧
      d.account? a = some ((signedWith x key).withCoins rest) ∧
      (signedWith x key).sequence.toNat = x.sequence.toNat + 1 ∧
      ∀ e, (rest.amountOf e).toNat +
        (if t.signers.head? = some a then (t.fee.amount.amountOf e).toNat else 0) =
          (x.coins.amountOf e).toNat
  fees : ∃ total, d.collected = .ok total ∧
    ∀ e, (total.amountOf e).toNat = (before.amountOf e).toNat + (t.fee.amount.amountOf e).toNat
  changes : c.ChangesOnly
    (t.signers.map placeOf ++ if t.fee.amount.isEmpty then [] else [feePlace]) d

theorem exists_payer (ht : t.messages ≠ []) : ∃ payer, t.signers.head? = some payer := by
  obtain ⟨m, hm⟩ := List.exists_mem_of_ne_nil _ ht
  have hs : m.signer ∈ t.signers := Transaction.mem_signers_iff.mpr ⟨m, hm, rfl⟩
  cases hl : t.signers with
  | nil =>
    rw [hl] at hs
    cases hs
  | cons a as => exact ⟨a, rfl⟩

/-- The collected fees are not stored with the accounts. -/
theorem Authorized.collected_eq {es : List (Address × Signature)} (h : Authorized c es d) :
    d.collected = c.collected := by
  refine h.changes.collected_eq ?_
  intro hmem
  obtain ⟨e, -, he⟩ := List.mem_map.mp hmem
  exact feePlace_ne_placeOf e.1 he.symm

/-- A signer can afford what it could before it has signed. -/
theorem Authorized.affords_iff {es : List (Address × Signature)} (h : Authorized c es d)
    (hp : payer ∈ es.map Prod.fst) : d.Affords payer fee ↔ c.Affords payer fee := by
  obtain ⟨e, he, rfl⟩ := List.mem_map.mp hp
  obtain ⟨x, key, hx, -, hy⟩ := h.signed e he
  unfold Affords
  rw [hx, hy]
  simp

/-- What an admitted transaction has passed: the limits, the signatures and the fee. -/
structure Passes (c : Context) (p : AuthParameters) (before : Coins) (t : Transaction)
    (payer : Address) (m d : Context) : Prop where
  first : t.signers.head? = some payer
  limits : checkLimits p t = .ok ()
  signed : Authorized c t.signed m
  charged : Charged m payer t.fee.amount before d

theorem exists_passes_of_run (h : c.Screens p before) (ht : t.messages ≠ [])
    (hrun : (screen t).run.run c = (.ok (), d)) : ∃ payer m, Passes c p before t payer m d := by
  obtain ⟨payer, hp⟩ := exists_payer ht
  obtain ⟨hlimits, m, hsign, hcharge⟩ := (run_screen_eq_ok h hp).mp hrun
  have hfst := Transaction.map_fst_signed (checkLimits_eq_ok.mp hlimits).2.1
  have hsigned := authorized_of_run h.accounts (hfst ▸ t.nodup_signers) hsign
  exact ⟨payer, m, hp, hlimits, hsigned, charged_of_run hsigned.reads
    (hsigned.changes.opens h.opensFees) (hsigned.collected_eq.trans h.fees) hcharge⟩

namespace Passes

variable {m : Context}

theorem map_fst_signed (h : Passes c p before t payer m d) : t.signed.map Prod.fst = t.signers :=
  Transaction.map_fst_signed (checkLimits_eq_ok.mp h.limits).2.1

theorem payer_mem (h : Passes c p before t payer m d) : payer ∈ t.signers :=
  List.mem_of_mem_head? h.first

theorem admissible (h : Passes c p before t payer m d) : Admissible c p before t := by
  obtain ⟨hmemo, hcount, hlimit⟩ := checkLimits_eq_ok.mp h.limits
  refine ⟨hmemo, hcount, hlimit, fun i a g ha hg => ?_, fun hne =>
    ⟨payer, h.first, ?_, fun e => ?_⟩⟩
  · obtain ⟨x, key, hx, hk, -⟩ := h.signed.signed (a, g) (mem_signed_iff.mpr ⟨i, ha, hg⟩)
    exact ⟨x, key, hx, hk⟩
  · exact (h.signed.affords_iff (h.map_fst_signed ▸ h.payer_mem)).mp (h.charged.affords hne)
  · obtain ⟨total, -, hamounts⟩ := h.charged.fees
    rw [← hamounts e]
    exact UInt64.toNat_lt_size _

theorem admitted (h : Passes c p before t payer m d) (hs : c.Screens p before) :
    Admitted c before t d := by
  constructor
  case signers =>
    intro i a g ha hg
    obtain ⟨x, key, hx, hk, hm⟩ := h.signed.signed (a, g) (mem_signed_iff.mpr ⟨i, ha, hg⟩)
    have hnext : (signedWith x key).sequence.toNat = x.sequence.toNat + 1 := by
      rw [sequence_signedWith]
      exact Word.toNat_add_one (hs.sequences a x hx)
    by_cases he : a = payer
    · obtain ⟨rest, hrest, hpaid⟩ := h.charged.pays _ (he ▸ hm)
      rw [coins_signedWith] at hpaid
      refine ⟨x, key, rest, hx, hk.names, he ▸ hrest, hnext, fun e => ?_⟩
      rw [if_pos (he ▸ h.first)]
      exact hpaid e
    · refine ⟨x, key, x.coins, hx, hk.names, ?_, hnext, fun e => ?_⟩
      · rw [h.charged.others a he, hm, ← coins_signedWith x key, Account.withCoins_coins]
      · rw [if_neg fun hh => he (Option.some.inj (hh.symm.trans h.first)), Nat.add_zero]
  case fees => exact h.charged.fees
  case changes =>
    have hplaces : (t.signed.map fun e => placeOf e.1) = t.signers.map placeOf := by
      rw [← h.map_fst_signed, List.map_map]
      rfl
    refine (h.signed.changes.mono ?_).trans (h.charged.changes.mono ?_)
    · rw [hplaces]
      exact List.subset_append_left ..
    · split
      · exact List.nil_subset _
      · exact List.cons_subset.mpr ⟨List.mem_append_left _ (List.mem_map_of_mem h.payer_mem),
          List.subset_append_right ..⟩

end Passes

theorem exists_run_of_admissible (h : c.Screens p before) (ht : t.messages ≠ [])
    (ha : Admissible c p before t) : ∃ d, (screen t).run.run c = (.ok (), d) := by
  obtain ⟨payer, hp⟩ := exists_payer ht
  have hfst := Transaction.map_fst_signed ha.count
  have hnodup : (t.signed.map Prod.fst).Nodup := hfst ▸ t.nodup_signers
  have haccepted : ∀ e ∈ t.signed, AcceptedIn c e := by
    intro e he
    obtain ⟨i, hs, hg⟩ := mem_signed_iff.mp he
    exact ha.signed i e.1 e.2 hs hg
  obtain ⟨m, hsign⟩ := exists_run_of_accepted h.accounts hnodup haccepted
  have hsigned := authorized_of_run h.accounts hnodup hsign
  have hpayer : payer ∈ t.signers := List.mem_of_mem_head? hp
  have hfee : t.fee.amount.isEmpty = false → m.Affords payer t.fee.amount ∧
      ∀ e, (before.amountOf e).toNat + (t.fee.amount.amountOf e).toNat < UInt64.size := by
    intro hne
    obtain ⟨payer', hp', hafford, hroom⟩ := ha.fee hne
    rw [hp] at hp'
    cases hp'
    exact ⟨(hsigned.affords_iff (hfst ▸ hpayer)).mpr hafford, hroom⟩
  obtain ⟨d, hcharge⟩ := exists_run_charge hsigned.reads (hsigned.changes.opens h.opensFees)
    (hsigned.collected_eq.trans h.fees) hfee
  have hlimits := checkLimits_eq_ok.mpr ⟨ha.memo, ha.count, ha.limit⟩
  exact ⟨d, (run_screen_eq_ok h hp).mpr ⟨hlimits, m, hsign, hcharge⟩⟩

/-- A transaction with messages is admitted if and only if it is admissible by the state before,
and then changes what it should. The signers are those of the messages, each once, in the order of
first appearance. -/
theorem screen_exact (h : c.Screens p before) (ht : t.messages ≠ []) :
    t.signers = (t.messages.map Message.signer).eraseDups ∧
      ((∃ d, (screen t).run.run c = (.ok (), d)) ↔ Admissible c p before t) ∧
      ∀ d, (screen t).run.run c = (.ok (), d) → Admitted c before t d := by
  refine ⟨t.signers_eq, ⟨?_, exists_run_of_admissible h ht⟩, fun d hrun => ?_⟩
  · rintro ⟨d, hrun⟩
    obtain ⟨payer, m, hp⟩ := exists_passes_of_run h ht hrun
    exact hp.admissible
  · obtain ⟨payer, m, hp⟩ := exists_passes_of_run h ht hrun
    exact hp.admitted h

namespace Sample

open Context.Sample

def gift : Transaction where
  messages := [.send ⟨holder, friend, .single "steak" 40⟩]
  fee := ⟨.single "steak" 1, 0⟩
  signatures := [⟨"07", "aa", 0, 0⟩]
  memo := "gift"

theorem screens_funded : funded.Screens .initial .empty where
  accounts := readsAccounts_funded
  sequences a x hx := by
    by_cases ha : a = holder
    · rw [ha, account?_holder] at hx
      cases hx
      decide
    · rw [account?_of_ne ha] at hx
      cases hx
  opensFees := ⟨_, rfl⟩
  fees := blank.collected_withAccount purse
  opensParameters := ⟨_, rfl⟩
  limits := by
    unfold limits parameter funded withAccount
    rw [contents_wrote_of_ne _ (by decide)]
    rfl

theorem admissible_gift : Admissible funded .initial .empty gift where
  memo := by decide
  count := rfl
  limit := by decide
  signed i a g ha hg := by
    cases i with
    | zero =>
      cases ha
      cases hg
      exact ⟨purse, [7], account?_holder, rfl, rfl, rfl, rfl, nofun, 0xaa, [], rfl⟩
    | succ i => cases hg
  fee _ := by
    refine ⟨holder, rfl, affords_purse (by decide), fun e => ?_⟩
    rw [Coins.amountOf_empty, UInt64.toNat_zero, Nat.zero_add]
    exact UInt64.toNat_lt_size _

end Sample

open Sample Context.Sample

/-- The one account pays the fee of its first transaction. -/
theorem screen_exact_gift :
    funded.Screens .initial .empty ∧ gift.messages ≠ [] ∧
      ∃ d y, (screen gift).run.run funded = (.ok (), d) ∧ d.account? holder = some y ∧
        y.sequence.toNat = 1 ∧ y.publicKey = some "07" ∧ (y.coins.amountOf "steak").toNat = 99 ∧
        ∃ total, d.collected = .ok total ∧ (total.amountOf "steak").toNat = 1 := by
  have hmessages : gift.messages ≠ [] := nofun
  obtain ⟨-, hiff, hadmitted⟩ := screen_exact screens_funded hmessages
  obtain ⟨d, hrun⟩ := hiff.mpr admissible_gift
  obtain ⟨hsigners, ⟨total, htotal, hfees⟩, -⟩ := hadmitted d hrun
  obtain ⟨x, key, rest, hx, hkey, hy, hnext, hcoins⟩ := hsigners 0 holder _ rfl rfl
  rw [account?_holder] at hx
  cases hx
  have hseven : Hex.decode "07" = .ok [7] := rfl
  cases hseven.symm.trans hkey
  refine ⟨screens_funded, hmessages, d, _, hrun, hy, ?_, ?_, ?_, total, htotal, hfees "steak"⟩
  · rw [Account.sequence_withCoins, hnext]
    rfl
  · rw [Account.publicKey_withCoins]
    decide
  · rw [Account.coins_withCoins]
    have hpayer : gift.signers.head? = some holder := rfl
    have h := hcoins "steak"
    rw [if_pos hpayer] at h
    exact Nat.add_right_cancel (h.trans (by decide : _ = 99 + 1))

end Admission
end Appchain
