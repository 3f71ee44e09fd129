import Appchain.Proofs.Movements

/-!
# Signatures

A transaction that is accepted carries, in the order of its signers, a signature
of each that is good for the account as it was. The account comes out with the
next sequence; apart from that, screening moves coins only.
-/

namespace Appchain

open Outcome

namespace Transaction

variable {t : Transaction}

/-- The signers that messages add to those already seen. -/
theorem mem_foldl_signers {ms : List Message} {seen : List Address} {a : Address} :
    a ∈ ms.foldl (fun seen m => if m.signer ∈ seen then seen else seen ++ [m.signer]) seen ↔
      a ∈ seen ∨ ∃ m ∈ ms, m.signer = a := by
  induction ms generalizing seen with
  | nil => simp
  | cons m ms ih =>
    rw [List.foldl_cons, ih]
    split
    · next hm =>
      constructor
      · rintro (h | ⟨m', h, rfl⟩)
        · exact .inl h
        · exact .inr ⟨m', List.mem_cons_of_mem m h, rfl⟩
      · rintro (h | ⟨m', h, rfl⟩)
        · exact .inl h
        · rcases List.mem_cons.mp h with rfl | h
          · exact .inl hm
          · exact .inr ⟨m', h, rfl⟩
    · simp [or_assoc, eq_comm]

theorem nodup_foldl_signers {ms : List Message} {seen : List Address} (h : seen.Nodup) :
    (ms.foldl (fun seen m => if m.signer ∈ seen then seen else seen ++ [m.signer]) seen).Nodup := by
  induction ms generalizing seen with
  | nil => exact h
  | cons m ms ih =>
    rw [List.foldl_cons]
    split
    · exact ih h
    · next hm =>
      apply ih
      rw [List.nodup_append]
      refine ⟨h, by simp, fun a ha b hb => ?_⟩
      rw [List.mem_singleton.mp hb]
      rintro rfl
      exact hm ha

theorem mem_signers_iff {a : Address} : a ∈ t.signers ↔ ∃ m ∈ t.messages, m.signer = a := by
  unfold signers
  rw [mem_foldl_signers]
  simp

theorem nodup_signers (t : Transaction) : t.signers.Nodup := nodup_foldl_signers .nil

/-- Every signer with its signature. -/
def signed (t : Transaction) : List (Address × Signature) := t.signers.zip t.signatures

end Transaction

namespace Admission

/-- The signature names the account as it is, with the key of its address; the account comes out
with the next sequence. -/
structure Signs (a : Address) (g : Signature) (x y : Account) : Prop where
  number : g.accountNumber = x.number
  sequence : g.sequence = x.sequence
  key : ∃ bytes, Hex.decode g.publicKey = .ok bytes ∧ Address.ofPublicKey bytes = a
  next : y.sequence = x.sequence + 1
  recorded : ∀ key, x.publicKey = some key → y.publicKey = some key
  name : y.name = x.name
  numbered : y.number = x.number

variable {x y : Account} {a : Address} {g : Signature}

theorem signs_of_signed (h : signed x a g = .ok y) : Signs a g x y := by
  obtain ⟨key, hk, rfl⟩ := signed_eq_ok_iff.mp h
  refine ⟨hk.number, hk.sequence, ⟨key, hk.names, hk.address⟩, sequence_signedWith x key,
    fun known hx => ?_, ?_, number_signedWith x key⟩
  · rw [publicKey_signedWith, hx]
    rfl
  · cases x <;> rfl

end Admission

namespace Ledger

open Admission (Signs)

variable {l k n : Ledger} {es : List (Address × Signature)}

/-- Each of the addresses has signed for the account that it had, and nothing else has changed. -/
structure Authorizes (es : List (Address × Signature)) (l k : Ledger) : Prop where
  signed : ∀ e ∈ es, ∃ x y, l.accounts.get? e.1 = some x ∧ Signs e.1 e.2 x y ∧
    k.accounts.get? e.1 = some y
  others : ∀ a, a ∉ es.map Prod.fst → k.accounts.get? a = l.accounts.get? a
  bonds : k.bonds = l.bonds

/-- One address after another signs; as they are different, each finds its account untouched. -/
theorem authorizes_of_foldlM (hl : l.WellFormed) (hd : (es.map Prod.fst).Nodup)
    (h : es.foldlM (fun l e => l.authorize e.1 e.2) l = .ok k) :
    Authorizes es l k ∧ k.WellFormed := by
  induction es generalizing l with
  | nil =>
    cases h
    exact ⟨⟨nofun, fun _ _ => rfl, rfl⟩, hl⟩
  | cons e es ih =>
    rw [List.map_cons, List.nodup_cons] at hd
    rw [List.foldlM_cons] at h
    obtain ⟨m, hm, h⟩ := bind_eq_ok.mp h
    obtain ⟨x, y, hx, hy, rfl⟩ := authorize_eq_ok.mp hm
    have hy' : y.address = e.1 :=
      (Admission.fitsUnder_signed (hl.accounts e.1 x hx) hy).address_eq
    obtain ⟨hi, hk⟩ := ih (hl.authorize hm) hd.2 h
    have hput (a : Address) (ha : a ≠ e.1) : (l.put y).accounts.get? a = l.accounts.get? a :=
      get?_accounts_of_ne rfl (hy' ▸ ha)
    refine ⟨⟨fun f hf => ?_, fun a ha => ?_, hi.bonds⟩, hk⟩
    · rcases List.mem_cons.mp hf with rfl | hf
      · refine ⟨x, y, hx, Admission.signs_of_signed hy, ?_⟩
        rw [hi.others _ hd.1]
        unfold put
        rw [hy', OrderedMap.get?_insert, if_pos rfl]
      · obtain ⟨x', y', hx', hs, hk'⟩ := hi.signed f hf
        have hne : f.1 ≠ e.1 := by
          intro he
          exact hd.1 (he ▸ List.mem_map_of_mem hf)
        rw [hput f.1 hne] at hx'
        exact ⟨x', y', hx', hs, hk'⟩
    · rw [List.map_cons, List.mem_cons, not_or] at ha
      rw [hi.others a ha.2, hput a ha.1]

theorem length_signatures_of_checkLimits {p : AuthParameters} {t : Transaction}
    (h : Admission.checkLimits p t = .ok ()) : t.signatures.length = t.signers.length := by
  obtain ⟨-, h⟩ := guard_eq_ok.mp h
  exact Classical.not_not.mp (guard_eq_ok.mp h).1

/-- What a transaction does to accounts and bonds: its signers sign, and then they alone pay. -/
structure Executes (t : Transaction) (l k n : Ledger) : Prop where
  signers_eq : t.signed.map Prod.fst = t.signers
  authorizes : Authorizes t.signed l k
  moves : Moves t.signers k n

theorem exists_executes (hl : l.WellFormed) {mode : Mode} {t : Transaction}
    (h : l.execute mode t = .ok n) : ∃ k, Executes t l k n := by
  obtain ⟨hc, m, hs, hn⟩ := execute_eq_ok.mp h
  obtain ⟨hlim, k, hk, hm⟩ := screen_eq_ok.mp hs
  have he : t.signed.map Prod.fst = t.signers :=
    List.map_fst_zip (Nat.le_of_eq (length_signatures_of_checkLimits hlim).symm)
  obtain ⟨ha, hk⟩ := authorizes_of_foldlM hl (he.symm ▸ t.nodup_signers) hk
  refine ⟨k, he, ha, Moves.trans (k := m) ?_ ?_⟩
  · cases hp : t.signers.head? with
    | none =>
      rw [hp] at hm
      rw [hm]
      exact .refl k
    | some payer =>
      rw [hp] at hm
      exact .charge hk.accounts (List.mem_of_mem_head? hp) hm
  · refine .foldlM_apply (hl.screen hs) (Transaction.messages_of_check hc) (fun x hx => ?_) hn
    exact Transaction.mem_signers_iff.mpr ⟨x, hx, rfl⟩

namespace Executes

variable {t : Transaction} {a : Address}

/-- Every signer has signed for the account that it had. -/
theorem exists_signs (h : Executes t l k n) (ha : a ∈ t.signers) :
    ∃ g x y, (a, g) ∈ t.signed ∧ l.accounts.get? a = some x ∧ Signs a g x y ∧
      k.accounts.get? a = some y := by
  rw [← h.signers_eq] at ha
  obtain ⟨e, he, rfl⟩ := List.mem_map.mp ha
  obtain ⟨x, y, hx, hs, hy⟩ := h.authorizes.signed e he
  exact ⟨e.2, x, y, he, hx, hs, hy⟩

theorem accounts_eq (h : Executes t l k n) (ha : a ∉ t.signers) :
    k.accounts.get? a = l.accounts.get? a :=
  h.authorizes.others a (h.signers_eq ▸ ha)

/-- Whoever has not signed loses nothing. -/
theorem spares (h : Executes t l k n) (ha : a ∉ t.signers) : Spares a l n :=
  (Spares.of_same (h.accounts_eq ha) (by rw [h.authorizes.bonds])).trans (h.moves.spares ha)

/-- An account stays, as it was or as signed for, and only its coins have changed since. -/
theorem kept (h : Executes t l k n) {x : Account} (hx : l.accounts.get? a = some x) :
    ∃ y c, n.accounts.get? a = some (y.withCoins c) ∧
      if a ∈ t.signers then ∃ g, Signs a g x y else y = x := by
  by_cases ha : a ∈ t.signers
  · obtain ⟨g, x', y, -, hx', hs, hy⟩ := h.exists_signs ha
    rw [hx] at hx'
    cases hx'
    obtain ⟨c, hc⟩ := h.moves.settles.kept a y hy
    exact ⟨y, c, hc, by rw [if_pos ha]; exact ⟨g, hs⟩⟩
  · obtain ⟨c, hc⟩ := h.moves.settles.kept a x ((h.accounts_eq ha).trans hx)
    exact ⟨x, c, hc, by rw [if_neg ha]⟩

/-- An account stays, with the key that it had, and its sequence counts the transactions that its
holder has signed. -/
theorem account (h : Executes t l k n) {x : Account} (hx : l.accounts.get? a = some x) :
    ∃ y, n.accounts.get? a = some y ∧
      y.sequence = (if a ∈ t.signers then x.sequence + 1 else x.sequence) ∧
      ∀ key, x.publicKey = some key → y.publicKey = some key := by
  obtain ⟨y, c, hy, hs⟩ := h.kept hx
  refine ⟨_, hy, ?_, fun key hkey => ?_⟩
  · rw [Account.sequence_withCoins]
    split at hs
    · next ha =>
      obtain ⟨g, hs⟩ := hs
      rw [if_pos ha, hs.next]
    · next ha => rw [if_neg ha, hs]
  · rw [Account.publicKey_withCoins]
    split at hs
    · obtain ⟨g, hs⟩ := hs
      exact hs.recorded key hkey
    · exact hs ▸ hkey

/-- An account keeps its name and its number. -/
theorem identity (h : Executes t l k n) {x : Account} (hx : l.accounts.get? a = some x) :
    ∃ y, n.accounts.get? a = some y ∧ y.name = x.name ∧ y.number = x.number := by
  obtain ⟨y, c, hy, hs⟩ := h.kept hx
  refine ⟨_, hy, ?_⟩
  rw [Account.name_withCoins, Account.number_withCoins]
  split at hs
  · obtain ⟨g, hs⟩ := hs
    exact ⟨hs.name, hs.numbered⟩
  · rw [hs]
    exact ⟨rfl, rfl⟩

/-- A new account is nobody's who has signed. -/
theorem new (h : Executes t l k n) (hx : l.accounts.get? a = none) :
    a ∉ t.signers ∧ ∀ y, n.accounts.get? a = some y →
      ∃ number c, y = ((Account.new a).withNumber number).withCoins c := by
  have ha : a ∉ t.signers := by
    intro ha
    obtain ⟨g, x, y, -, hx', -⟩ := h.exists_signs ha
    rw [hx] at hx'
    cases hx'
  exact ⟨ha, fun y hy => h.moves.settles.new a y ((h.accounts_eq ha).trans hx) hy⟩

end Executes
end Ledger
end Appchain
