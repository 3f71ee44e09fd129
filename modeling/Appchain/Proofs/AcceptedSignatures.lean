import Appchain.Proofs.ReadableAccounts
import Appchain.Proofs.Signatures

/-!
# Accepted signatures

A list of different addresses signs if and only if each has an account that accepts its
signature in the context before all of them: no address finds its account changed by another
one.
-/

namespace Appchain

open Outcome Context

namespace Transaction

/-- The signers that messages add to those already seen, in the order of first appearance. -/
theorem foldl_signers_eq (ms : List Message) (seen : List Address) :
    ms.foldl (fun seen m => if m.signer ∈ seen then seen else seen ++ [m.signer]) seen =
      seen ++ ((ms.map Message.signer).filter fun a => a ∉ seen).eraseDups := by
  induction ms generalizing seen with
  | nil => simp
  | cons m ms ih =>
    rw [List.foldl_cons, ih, List.map_cons]
    split
    · next h => rw [List.filter_cons_of_neg (by simpa using h)]
    · next h =>
      rw [List.filter_cons_of_pos (by simpa using h), List.eraseDups_cons, List.filter_filter,
        List.append_assoc, List.singleton_append]
      congr 3
      refine List.filter_congr fun a _ => ?_
      by_cases ha : a = m.signer <;> simp [ha, h]

theorem signers_eq (t : Transaction) : t.signers = (t.messages.map Message.signer).eraseDups := by
  unfold signers
  rw [foldl_signers_eq, List.nil_append, List.filter_eq_self.mpr (by simp)]

variable {t : Transaction}

theorem mem_signed_iff {a : Address} {g : Signature} : (a, g) ∈ t.signed ↔
    ∃ i : Nat, t.signers[i]? = some a ∧ t.signatures[i]? = some g := by
  unfold signed
  rw [List.mem_iff_getElem?]
  simp only [List.getElem?_zip_eq_some]

theorem map_fst_signed (hc : t.signatures.length = t.signers.length) :
    t.signed.map Prod.fst = t.signers :=
  List.map_fst_zip (Nat.le_of_eq hc.symm)

end Transaction

namespace Admission

variable {c d : Context} {x y : Account} {a : Address} {g : Signature}

theorem run_account (h : c.ReadsAccounts) (a : Address) :
    (account a).run.run c =
      match c.account? a with
      | some x => (.ok x, c)
      | none => (.error (.unknownAddress a), c) := by
  unfold account
  rw [run_bind_ok (Accounts.run_get? h a)]
  cases c.account? a <;> rfl

theorem run_account_eq_ok (h : c.ReadsAccounts) :
    (account a).run.run c = (.ok x, d) ↔ c.account? a = some x ∧ d = c := by
  rw [run_account h]
  cases c.account? a with
  | none => exact iff_of_false (by rintro ⟨⟩) (by rintro ⟨⟨⟩, -⟩)
  | some y =>
    constructor
    · rintro ⟨⟩
      exact ⟨rfl, rfl⟩
    · rintro ⟨⟨⟩, rfl⟩
      rfl

theorem run_authorize_eq_ok (h : c.ReadsAccounts) : (authorize a g).run.run c = (.ok (), d) ↔
    ∃ x key, c.account? a = some x ∧ Accepts a g x key ∧ d = c.withAccount (signedWith x key) := by
  unfold authorize
  rw [run_bind_eq_ok]
  constructor
  · rintro ⟨x, c', hx, hrun⟩
    obtain ⟨hx, rfl⟩ := (run_account_eq_ok h).mp hx
    obtain ⟨y, c', hlift, hrun⟩ := run_bind_eq_ok.mp hrun
    obtain ⟨hy, rfl⟩ := Prod.mk.inj hlift
    obtain ⟨key, ha, rfl⟩ := signed_eq_ok_iff.mp hy
    rw [Accounts.run_put h.opens] at hrun
    exact ⟨x, key, hx, ha, (Prod.mk.inj hrun).2.symm⟩
  · rintro ⟨x, key, hx, ha, rfl⟩
    refine ⟨x, c, (run_account_eq_ok h).mpr ⟨hx, rfl⟩, ?_⟩
    rw [signed_eq_ok_iff.mpr ⟨key, ha, rfl⟩]
    exact Accounts.run_put h.opens _

/-- The address has an account that accepts the signature. -/
def AcceptedIn (c : Context) (e : Address × Signature) : Prop :=
  ∃ x key, c.account? e.1 = some x ∧ Accepts e.1 e.2 x key

/-- Every address has signed for the account that it had, and that is all. -/
structure Authorized (c : Context) (es : List (Address × Signature)) (d : Context) : Prop where
  signed : ∀ e ∈ es, ∃ x key, c.account? e.1 = some x ∧ Accepts e.1 e.2 x key ∧
    d.account? e.1 = some (signedWith x key)
  reads : d.ReadsAccounts
  changes : c.ChangesOnly (es.map fun e => placeOf e.1) d

variable {e : Address × Signature} {es : List (Address × Signature)}

/-- Signing for one address leaves the accounts of the others as they were. -/
theorem account?_signed_of_ne (h : c.ReadsAccounts) {key : Bytes} (hx : c.account? a = some x)
    {b : Address} (hne : b ≠ a) : (c.withAccount (signedWith x key)).account? b = c.account? b := by
  apply account?_withAccount_of_ne
  rwa [address_signedWith, h.address_eq hx]

theorem readsAccounts_signed (h : c.ReadsAccounts) (hx : c.account? a = some x) (key : Bytes) :
    (c.withAccount (signedWith x key)).ReadsAccounts := by
  apply h.withAccount
  rw [coins_signedWith]
  exact valid_of_account? hx

theorem ne_of_nodup (hd : ((e :: es).map Prod.fst).Nodup) {f : Address × Signature} (hf : f ∈ es) :
    f.1 ≠ e.1 := by
  intro he
  exact (List.nodup_cons.mp hd).1 (he ▸ List.mem_map_of_mem hf)

/-- Induction over the signers, with the context that the first of them leaves. -/
theorem authorized_of_run (h : c.ReadsAccounts) (hd : (es.map Prod.fst).Nodup)
    (hrun : (es.forM fun e => authorize e.1 e.2).run.run c = (.ok (), d)) :
    Authorized c es d := by
  induction es generalizing c with
  | nil =>
    cases hrun
    exact ⟨nofun, h, .refl _⟩
  | cons e es ih =>
    obtain ⟨_, c', hc', hrun⟩ := run_bind_eq_ok.mp hrun
    obtain ⟨x, key, hx, ha, rfl⟩ := (run_authorize_eq_ok h).mp hc'
    have hi := ih (readsAccounts_signed h hx key) (List.nodup_cons.mp hd).2 hrun
    have haddress : (signedWith x key).address = e.1 := by rw [address_signedWith, h.address_eq hx]
    constructor
    case signed =>
      intro f hf
      rcases List.mem_cons.mp hf with he | hf
      · rw [he]
        refine ⟨x, key, hx, ha, ?_⟩
        have hplace : placeOf e.1 ∉ es.map fun f => placeOf f.1 := by
          rintro hmem
          obtain ⟨f, hf, heq⟩ := List.mem_map.mp hmem
          exact ne_of_nodup hd hf (placeOf_injective heq)
        rw [hi.changes.account?_eq hplace]
        refine c.account?_withAccount_self haddress ?_
        rw [coins_signedWith]
        exact valid_of_account? hx
      · obtain ⟨y, k, hy, hk⟩ := hi.signed f hf
        rw [account?_signed_of_ne h hx (ne_of_nodup hd hf)] at hy
        exact ⟨y, k, hy, hk⟩
    case reads => exact hi.reads
    case changes =>
      refine (ChangesOnly.wrote (.refl c) ?_ _).trans (hi.changes.mono ?_)
      · rw [haddress]
        exact List.mem_cons_self ..
      · exact List.subset_cons_self ..

theorem exists_run_of_accepted (h : c.ReadsAccounts) (hd : (es.map Prod.fst).Nodup)
    (ha : ∀ e ∈ es, AcceptedIn c e) :
    ∃ d, (es.forM fun e => authorize e.1 e.2).run.run c = (.ok (), d) := by
  induction es generalizing c with
  | nil => exact ⟨c, rfl⟩
  | cons e es ih =>
    obtain ⟨x, key, hx, hk⟩ := ha e (List.mem_cons_self ..)
    have hfirst := (run_authorize_eq_ok h).mpr ⟨x, key, hx, hk, rfl⟩
    have hrest : ∀ f ∈ es, AcceptedIn (c.withAccount (signedWith x key)) f := by
      intro f hf
      unfold AcceptedIn
      rw [account?_signed_of_ne h hx (ne_of_nodup hd hf)]
      exact ha f (List.mem_cons_of_mem e hf)
    obtain ⟨d, hrun⟩ := ih (readsAccounts_signed h hx key) (List.nodup_cons.mp hd).2 hrest
    exact ⟨d, run_bind_eq_ok.mpr ⟨(), _, hfirst, hrun⟩⟩

end Admission
end Appchain
