import Appchain.Proofs.Queues
import Appchain.Proofs.Spending
import Mathlib.Data.List.Nodup

/-!
# Replay

The sequence of an account counts the accepted transactions that its holder has
signed. A signature names the sequence that the account had, so a transaction that
has been accepted names sequences that have passed, and is not accepted again.
-/

namespace Appchain

open Outcome

/-- How many of the transactions an address has signed. -/
def signedBy (a : Address) (ts : List Transaction) : Nat := ts.countP fun t => a ∈ t.signers

theorem signedBy_append (a : Address) (ts us : List Transaction) :
    signedBy a (ts ++ us) = signedBy a ts + signedBy a us := List.countP_append

theorem signedBy_singleton (a : Address) (t : Transaction) :
    signedBy a [t] = if a ∈ t.signers then 1 else 0 := by
  unfold signedBy
  rw [List.countP_singleton]
  simp only [decide_eq_true_eq]

/-- What every address has signed can be counted by a word. Sequences are unchecked counters, so
nothing is promised beyond. -/
def Numbered (ts : List Transaction) : Prop := ∀ a, signedBy a ts < UInt64.size

theorem Numbered.of_append {ts us : List Transaction} (h : Numbered (ts ++ us)) : Numbered ts := by
  intro a
  have ha := h a
  rw [signedBy_append] at ha
  omega

namespace Transaction

/-- An acceptable transaction has messages, hence signers. -/
theorem exists_signer_of_check {t : Transaction} (h : t.check = .ok ()) : ∃ a, a ∈ t.signers := by
  have hne : t.messages ≠ [] := by
    intro he
    unfold check at h
    rw [he] at h
    cases h
  obtain ⟨m, hm⟩ := List.exists_mem_of_ne_nil _ hne
  exact ⟨m.signer, mem_signers_iff.mpr ⟨m, hm, rfl⟩⟩

end Transaction

namespace Ledger

variable {l k n : Ledger} {ts us : List Transaction}

/-- No account has been used yet. -/
def Unused (l : Ledger) : Prop := ∀ a x, l.accounts.get? a = some x → x.sequence = 0

theorem Unused.enroll (h : l.Unused) (a : GenesisAccount) : (l.enroll a).Unused := by
  intro b x hx
  change (l.accounts.insert _ ((l.create a.holder).1.withCoins a.coins)).get? b = some x at hx
  rw [OrderedMap.get?_insert] at hx
  split at hx
  · cases hx
    rfl
  · exact h b x hx

theorem Unused.loadAccounts (h : l.Unused) {seen : List Address} {as : List GenesisAccount}
    (hn : l.loadAccounts seen as = .ok n) : n.Unused := by
  induction as generalizing l seen with
  | nil =>
    cases hn
    exact h
  | cons a as ih => exact ih (h.enroll a) (loadAccounts_cons_eq_ok.mp hn).2

/-- A chain starts with accounts that have not been used. -/
theorem Unused.of_genesis {g : Genesis} (h : ofGenesis g = .ok n) : n.Unused := by
  obtain ⟨l₁, l₂, l₃, h⟩ := ofGenesis_eq_ok.mp h
  have h₀ : (initial g).Unused := by
    intro a x hx
    rw [initial_eq] at hx
    cases hx
  have h₁ : l₁.Unused := h₀.loadAccounts h.accounts
  rw [loadBonds_frame h.bonds, loadSequences_frame h.sequences, loadQueues_frame h.queues]
  exact h₁

/-- Sequences are what their holders have signed, as far as a word can count it. -/
structure Tallies (l : Ledger) (ts : List Transaction) : Prop where
  sequence_eq : ∀ a x, l.accounts.get? a = some x → x.sequence = .ofNat (signedBy a ts)
  absent : ∀ a, l.accounts.get? a = none → signedBy a ts = 0

theorem Unused.tallies (h : l.Unused) : l.Tallies [] where
  sequence_eq := h
  absent _ _ := rfl

theorem Tallies.executes (hl : l.Tallies ts) {t : Transaction} (h : Executes t l k n) :
    n.Tallies (ts ++ [t]) where
  sequence_eq a y hy := by
    rw [signedBy_append, signedBy_singleton]
    cases hx : l.accounts.get? a with
    | none =>
      obtain ⟨ha, hnew⟩ := h.new hx
      obtain ⟨number, c, rfl⟩ := hnew y hy
      rw [hl.absent a hx, if_neg ha]
      rfl
    | some x =>
      obtain ⟨y', hy', hs, -⟩ := h.account hx
      rw [hy] at hy'
      cases hy'
      rw [hs, hl.sequence_eq a x hx]
      split
      · exact (UInt64.ofNat_add ..).symm
      · rfl
  absent a ha := by
    cases hx : l.accounts.get? a with
    | none => rw [signedBy_append, signedBy_singleton, hl.absent a hx, if_neg (h.new hx).1]
    | some x =>
      obtain ⟨y, hy, -⟩ := h.account hx
      rw [ha] at hy
      cases hy

/-- Sequences count what their holders have signed, and every signature on the transactions names
a sequence that has passed since. -/
structure Counts (l : Ledger) (ts : List Transaction) : Prop where
  stored : ∀ a x, l.accounts.get? a = some x → x.sequence.toNat = signedBy a ts
  absent : ∀ a, l.accounts.get? a = none → signedBy a ts = 0
  passed : ∀ t ∈ ts, ∀ e ∈ t.signed, e.2.sequence.toNat < signedBy e.1 ts
  nodup : ts.Nodup

theorem Counts.tallies (hc : l.Counts ts) : l.Tallies ts where
  sequence_eq a x hx := by rw [← hc.stored a x hx, UInt64.ofNat_toNat]
  absent := hc.absent

theorem Unused.counts (h : l.Unused) : l.Counts [] where
  stored a x hx := by
    rw [h a x hx]
    rfl
  absent _ _ := rfl
  passed := nofun
  nodup := .nil

/-- The signatures on a transaction that is carried out name the present sequences. -/
theorem Counts.sequence_eq (hc : l.Counts ts) {t : Transaction} (h : Executes t l k n)
    {e : Address × Signature} (he : e ∈ t.signed) : e.2.sequence.toNat = signedBy e.1 ts := by
  obtain ⟨x, y, hx, hs, -⟩ := h.authorizes.signed e he
  rw [hs.sequence]
  exact hc.stored e.1 x hx

theorem Counts.executes (hc : l.Counts ts) {t : Transaction} (ht : t.check = .ok ())
    (h : Executes t l k n) (hb : Numbered (ts ++ [t])) : n.Counts (ts ++ [t]) where
  stored a y hy := by
    rw [(hc.tallies.executes h).sequence_eq a y hy, UInt64.toNat_ofNat_of_lt' (hb a)]
  absent := (hc.tallies.executes h).absent
  passed u hu e he := by
    rw [signedBy_append, signedBy_singleton]
    rcases List.mem_append.mp hu with hu | hu
    · exact Nat.lt_of_lt_of_le (hc.passed u hu e he) (Nat.le_add_right ..)
    · cases List.mem_singleton.mp hu
      have hsigned : e.1 ∈ t.signers := h.signers_eq ▸ List.mem_map_of_mem he
      rw [hc.sequence_eq h he, if_pos hsigned]
      exact Nat.lt_succ_self _
  nodup := by
    -- A signer of the new transaction names a sequence that has not passed.
    have hnew : t ∉ ts := by
      intro hmem
      obtain ⟨a, ha⟩ := Transaction.exists_signer_of_check ht
      obtain ⟨s, x, y, hs, -, -, -⟩ := h.exists_signs ha
      exact Nat.ne_of_lt (hc.passed t hmem _ hs) (hc.sequence_eq h hs)
    rw [List.nodup_append]
    refine ⟨hc.nodup, List.nodup_singleton t, fun u hu v hv => ?_⟩
    rw [List.mem_singleton.mp hv]
    rintro rfl
    exact hnew hu

/-- What a chain starts with and every transaction preserves holds once they all have been carried
out. -/
theorem foldlM_execute {P : Ledger → List Transaction → Prop} {g : Genesis} {start : Ledger}
    (step : ∀ l k n us t, l.WellFormed → P l us → t.check = .ok () → Executes t l k n → P n (us ++ [t]))
    (hs : ofGenesis g = .ok start) (h₀ : P start [])
    (h : ts.foldlM (fun l t => l.execute .deliver t) start = .ok l) : P l ts := by
  have hr : l.WellFormed ∧ P l ([] ++ ts.flatMap ([·])) := by
    refine foldlM_records (P := fun l ts => l.WellFormed ∧ P l ts) (fun t _ l n us hl he => ?_)
      ⟨.of_genesis hs, h₀⟩ h
    obtain ⟨k, hk⟩ := exists_executes hl.1 he
    exact ⟨hl.1.execute he, step l k n us t hl.1 hl.2 (execute_eq_ok.mp he).1 hk⟩
  rw [List.flatMap_singleton', List.nil_append] at hr
  exact hr.2

theorem Tallies.of_run {g : Genesis} {start : Ledger} (hs : ofGenesis g = .ok start)
    (h : ts.foldlM (fun l t => l.execute .deliver t) start = .ok l) : l.Tallies ts :=
  foldlM_execute (fun _ _ _ _ _ _ hl _ hk => hl.executes hk) hs (Unused.of_genesis hs).tallies h

/-- A run counts what is signed on its transactions. -/
theorem Counts.of_run {g : Genesis} {start : Ledger} (hb : Numbered ts)
    (hs : ofGenesis g = .ok start)
    (h : ts.foldlM (fun l t => l.execute .deliver t) start = .ok l) : l.Counts ts :=
  foldlM_execute (P := fun l ts => Numbered ts → l.Counts ts)
    (fun _ _ _ _ _ _ hc ht hk hn => (hc hn.of_append).executes ht hk hn) hs
    (fun _ => (Unused.of_genesis hs).counts) h hb

/-- An account stays with the key that it has. -/
theorem exists_account_of_foldlM (hl : l.WellFormed) {mode : Mode}
    (h : us.foldlM (fun l t => l.execute mode t) l = .ok n) {a : Address} {x : Account}
    (hx : l.accounts.get? a = some x) :
    ∃ y, n.accounts.get? a = some y ∧ ∀ key, x.publicKey = some key → y.publicKey = some key := by
  have hn : n.WellFormed ∧ ∃ y, n.accounts.get? a = some y ∧
      ∀ key, x.publicKey = some key → y.publicKey = some key := by
    refine foldlM_preserves (P := fun k => k.WellFormed ∧ ∃ y, k.accounts.get? a = some y ∧
      ∀ key, x.publicKey = some key → y.publicKey = some key) (fun t _ b c hb he => ?_)
      ⟨hl, x, hx, fun _ hk => hk⟩ h
    obtain ⟨hwf, y, hy, hkey⟩ := hb
    obtain ⟨k, hk⟩ := exists_executes hwf he
    obtain ⟨z, hz, -, hkey'⟩ := hk.account hy
    exact ⟨hwf.execute he, z, hz, fun key hx => hkey' key (hkey key hx)⟩
  exact hn.2

end Ledger

namespace App

variable {a b c : App} {g : Genesis} {ts us : List Transaction}

/-- The run goes on from one point to another and accepts the transactions in between. -/
inductive Continues (a : App) : List Transaction → App → Prop
  | refl : Continues a [] a
  | step {us : List Transaction} {b c : App} {e : Event} :
      Continues a us b → (e.commits = true → b.lastCommit.version ≠ Word.maximum) →
      b.perform e = .ok c → Continues a (us ++ (b.accepted e).toList) c

theorem Run.continues (h : Run g ts a) (hc : Continues a us b) : Run g (ts ++ us) b := by
  induction hc with
  | refl =>
    rw [List.append_nil]
    exact h
  | step _ hv hp ih =>
    rw [← List.append_assoc]
    exact .step ih hv hp

/-- There is room for another transaction as long as no stored sequence is the greatest word. -/
theorem Run.numbered_of_accepted {e : Event} {t : Transaction} (h : Run g ts a) (hn : Numbered ts)
    (ht : a.accepted e = some t)
    (hroom : ∀ p x, a.account p = .ok (some x) → x.sequence ≠ Word.maximum) :
    Numbered (ts ++ [t]) := by
  obtain ⟨start, l, hs, hts, hl, hwf⟩ := h.holds
  have hcount := Ledger.Counts.of_run hn hs hts
  obtain ⟨text, rfl⟩ : ∃ text, e = .deliver text := by
    cases e with
    | deliver text => exact ⟨text, rfl⟩
    | _ => cases ht
  obtain ⟨b, n, -, -, he⟩ := hl.perform_of_accepted hwf ht
  obtain ⟨k, hk⟩ := Ledger.exists_executes hwf he
  intro p
  rw [signedBy_append, signedBy_singleton]
  split
  · next hp =>
    obtain ⟨s, x, y, -, hx, -⟩ := hk.exists_signs hp
    have hx' : a.account p = .ok (some x) := by rw [hl.account_eq, hx]
    rw [← hcount.stored p x hx, ← Word.toNat_succ (hroom p x hx')]
    exact UInt64.toNat_lt_size _
  · exact hn p

/-- At every point of a run the sequence of every stored account counts the accepted transactions
that its address has signed. From any point to any later one accounts stay, their sequences do not
decrease and their keys do not change, and no transaction is accepted twice. -/
theorem Run.sequences_count (h : Run g ts a) (hc : Continues a us b) (hn : Numbered (ts ++ us)) :
    (∀ p, ∃ before after, a.account p = .ok before ∧ b.account p = .ok after ∧
      (∀ x, before = some x → x.address = p ∧ x.sequence.toNat = signedBy p ts ∧
        ∃ y, after = some y ∧ x.sequence ≤ y.sequence ∧
          ∀ key, x.publicKey = some key → y.publicKey = some key) ∧
      (∀ y, after = some y → y.address = p ∧ y.sequence.toNat = signedBy p (ts ++ us)) ∧
      (after = none → signedBy p (ts ++ us) = 0)) ∧
    ∀ t, (ts ++ us).count t ≤ 1 := by
  obtain ⟨start, l, hs, hts, hl, hwf⟩ := h.holds
  obtain ⟨start', n, hs', hus, hb, hwf'⟩ := (h.continues hc).holds
  rw [hs] at hs'
  cases hs'
  have hfrom : us.foldlM (fun l t => l.execute .deliver t) l = .ok n := by
    rw [List.foldlM_append, hts] at hus
    exact hus
  have hcount := Ledger.Counts.of_run hn.of_append hs hts
  have hcount' := Ledger.Counts.of_run hn hs hus
  refine ⟨fun p => ⟨_, _, hl.account_eq p, hb.account_eq p, fun x hx => ?_, fun y hy => ?_,
      hcount'.absent p⟩,
    List.nodup_iff_count_le_one.mp hcount'.nodup⟩
  · obtain ⟨y, hy, hkey⟩ := Ledger.exists_account_of_foldlM hwf hfrom hx
    refine ⟨(hwf.accounts p x hx).address_eq, hcount.stored p x hx, y, hy, ?_, hkey⟩
    rw [UInt64.le_iff_toNat_le, hcount.stored p x hx, hcount'.stored p y hy, signedBy_append]
    exact Nat.le_add_right ..
  · exact ⟨(hwf'.accounts p y hy).address_eq, hcount'.stored p y hy⟩

/-- One transaction is counted for the one who has signed it. -/
theorem Run.sequences_count_answer :
    ∃ a b y, Run Sample.genesis [] a ∧ Continues a [Sample.answer] b ∧ Numbered [Sample.answer] ∧
      b.account Sample.holder = .ok (some y) ∧ y.sequence.toNat = 1 := by
  obtain ⟨a, b, ha, hacc, hp, -⟩ := Sample.run
  have hc : Continues a [Sample.answer] b := by
    have hstep := Continues.step .refl (fun h => by cases h) hp
    rw [hacc] at hstep
    exact hstep
  have hn : Numbered ([] ++ [Sample.answer]) := by
    intro p
    rw [List.nil_append, signedBy_singleton]
    split <;> decide
  have hone : signedBy Sample.holder ([] ++ [Sample.answer]) = 1 := by
    rw [List.nil_append, signedBy_singleton]
    exact if_pos (List.mem_singleton.mpr rfl)
  obtain ⟨hall, -⟩ := Run.sequences_count ha hc hn
  obtain ⟨before, after, -, hafter, -, hcount, habsent⟩ := hall Sample.holder
  cases after with
  | none =>
    rw [habsent rfl] at hone
    cases hone
  | some y => exact ⟨a, b, y, ha, hc, hn, hafter, (hcount y rfl).2.trans hone⟩

end App
end Appchain
