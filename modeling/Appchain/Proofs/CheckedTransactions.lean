import Appchain.Proofs.Spending
import Appchain.Proofs.Submissions

/-!
# Checking a transaction

A ready chain answers from its ledger. The header of the block does not matter to
the answer, and whether a transaction is checked or delivered matters to a quiz
only: every other transaction is answered by a check as it would be by a delivery.
-/

namespace Appchain

open Outcome

namespace Ledger

variable {l n : Ledger} {t : Transaction} {text : Bytes}

/-- The answer to some bytes. -/
def respond (l : Ledger) (mode : Mode) (text : Bytes) : Response :=
  match Transaction.decode .standard text with
  | .error e => .rejected (.codec e)
  | .ok t =>
    match l.execute mode t with
    | .error e => .rejected e
    | .ok _ => .accepted t.events

theorem apply_mode_eq (l : Ledger) {m : Message} (h : ∀ q, m ≠ .quiz q) (mode mode' : Mode) :
    l.apply mode m = l.apply mode' m := by
  cases m with
  | quiz q => exact absurd rfl (h q)
  | _ => rfl

theorem foldlM_apply_mode_eq (l : Ledger) {ms : List Message} (h : ∀ q, .quiz q ∉ ms)
    (mode mode' : Mode) :
    ms.foldlM (fun l m => l.apply mode m) l = ms.foldlM (fun l m => l.apply mode' m) l := by
  induction ms generalizing l with
  | nil => rfl
  | cons m ms ih =>
    have hm : ∀ q, m ≠ .quiz q := fun q he => h q (he ▸ List.mem_cons_self ..)
    have hms : ∀ q, .quiz q ∉ ms := fun q hq => h q (List.mem_cons_of_mem m hq)
    rw [List.foldlM_cons, List.foldlM_cons, l.apply_mode_eq hm mode mode']
    exact congrArg _ (funext fun n => ih n hms)

/-- Only a quiz depends on the mode. -/
theorem execute_mode_eq (l : Ledger) (h : ∀ q, .quiz q ∉ t.messages) (mode mode' : Mode) :
    l.execute mode t = l.execute mode' t := by
  unfold execute
  simp only [foldlM_apply_mode_eq _ h mode mode']

theorem respond_mode_eq (l : Ledger)
    (h : ∀ t, Transaction.decode .standard text = .ok t → ∀ q, .quiz q ∉ t.messages)
    (mode mode' : Mode) : l.respond mode text = l.respond mode' text := by
  unfold respond
  cases hd : Transaction.decode .standard text with
  | error e => rfl
  | ok t => simp only [l.execute_mode_eq (h t hd) mode mode']

/-- What is accepted has been decoded and carried out. -/
theorem exists_of_isOk_respond {mode : Mode} (h : (l.respond mode text).isOk = true) :
    ∃ t n, Transaction.decode .standard text = .ok t ∧ l.execute mode t = .ok n ∧
      l.respond mode text = .accepted t.events := by
  unfold respond at h ⊢
  cases hd : Transaction.decode .standard text with
  | error e =>
    rw [hd] at h
    exact absurd h (TxError.not_isOk_rejected _)
  | ok t =>
    rw [hd] at h
    simp only at h ⊢
    cases he : l.execute mode t with
    | error e =>
      rw [he] at h
      exact absurd h e.not_isOk_rejected
    | ok n => exact ⟨t, n, rfl, he, rfl⟩

end Ledger

namespace App

variable {a : App} {l : Ledger} {text : Bytes}

/-- A chain that is ready, after blocks of transactions or after any calls. Counters do not wrap
around. -/
inductive Ready : App → Prop
  | run {g : Genesis} {ts : List Transaction} {a : App} : Run g ts a → Ready a
  | calls {cs : List Call} {a : App} :
      Reached cs a → cs.length < UInt64.size → a.phase = .ready → Ready a

theorem Ready.holds (h : Ready a) : ∃ l, a.Holds l ∧ l.Grounded := by
  cases h with
  | run hr =>
    obtain ⟨-, l, -, -, hl, hw⟩ := hr.holds
    exact ⟨l, hl, .inl hw⟩
  | calls hr hn hp =>
    obtain ⟨l, k, hl, -⟩ := hr.traced hn
    exact ⟨l, hl.holds hp, (hl.founded hp).grounded⟩

theorem Holds.exists_run {mode : Mode} (h : a.Holds l) (ho : ∀ t, Ordinary (l.execute mode t))
    (text : Bytes) : ∃ w, a.run mode text = .ok (l.respond mode text, w) := by
  unfold Ledger.respond
  cases hd : Transaction.decode .standard text with
  | error e => exact ⟨_, h.run_of_codec mode hd⟩
  | ok t =>
    simp only
    cases he : l.execute mode t with
    | error e => exact ⟨_, h.run_of_error hd he (ho t e he)⟩
    | ok n =>
      obtain ⟨c, hc, -⟩ := h.run_of_ok hd he
      exact ⟨_, hc⟩

/-- Bytes that are checked are answered from the ledger. -/
theorem Holds.check_eq (h : a.Holds l) (hl : l.Grounded) (text : Bytes) :
    a.check text = .ok (l.respond .check text) := by
  obtain ⟨w, hw⟩ := h.exists_run (hl.ordinary_execute .check) text
  unfold check
  rw [hw]
  rfl

/-- Bytes that are delivered are answered from the ledger. -/
theorem Holds.exists_deliver (h : a.Holds l) (hl : l.Grounded) (text : Bytes) :
    ∃ b, a.deliver text = .ok (l.respond .deliver text, b) := by
  obtain ⟨r, b, hr, -, -, -⟩ := h.deliver_take (hl.ordinary_execute .deliver) text
  obtain ⟨w, hw⟩ := run_of_deliver hr
  obtain ⟨w', hw'⟩ := h.exists_run (hl.ordinary_execute .deliver) text
  rw [hw'] at hw
  cases hw
  exact ⟨b, hr⟩

/-- Bytes that hold no quiz are answered by a check as by a delivery, in whatever block they come.
If the answer is success, then they hold a transaction that runs when it is delivered, every message
of it; otherwise a delivery changes nothing. -/
theorem Ready.check_eq_deliver (h : Ready a)
    (hq : ∀ t, Transaction.decode .standard text = .ok t → ∀ q, .quiz q ∉ t.messages) :
    ∃ r, a.check text = .ok r ∧ (∃ b, a.deliver text = .ok (r, b)) ∧
      (∀ header, (a.beginBlock header).check text = .ok r ∧
        ∃ b, (a.beginBlock header).deliver text = .ok (r, b)) ∧
      (r.isOk = true → ∃ t c, Transaction.decode .standard text = .ok t ∧
        r = .accepted t.events ∧ (a.execute t).run.run (a.context .deliver) = (.ok t.events, c)) ∧
      (r.isOk = false → a.deliver text = .ok (r, a)) := by
  obtain ⟨l, hl, hg⟩ := h.holds
  obtain ⟨b, hb⟩ := hl.exists_deliver hg text
  have hcheck {c : App} (hc : c.Holds l) : c.check text = .ok (l.respond .deliver text) := by
    rw [hc.check_eq hg text, l.respond_mode_eq hq .check .deliver]
  refine ⟨_, hcheck hl, ⟨b, hb⟩, fun header => ?_, fun hok => ?_, fun hok => ?_⟩
  · have hbegun := hl.beginBlock header
    exact ⟨hcheck hbegun, hbegun.exists_deliver hg text⟩
  · obtain ⟨t, n, hd, he, hr⟩ := Ledger.exists_of_isOk_respond hok
    have hrun := runs_execute hl.screen (Transaction.valid_of_decode hd) _ (hl.context .deliver)
    rw [he] at hrun
    obtain ⟨c, hc, -⟩ := hrun
    exact ⟨t, c, hd, hr, hc⟩
  · rw [hb, eq_of_deliver hb hok]

/-- A payment that would be carried out is admitted, in this block and in the next. -/
theorem Ready.check_eq_deliver_payment :
    ∃ a b r, Ready a ∧ Transaction.decode .standard Sample.paymentText = .ok Sample.payment ∧
      a.check Sample.paymentText = .ok r ∧ a.deliver Sample.paymentText = .ok (r, b) ∧
      r = .accepted [("bank", "cosmos-sdk/Send")] ∧
      (a.beginBlock ⟨"xpx", 2⟩).check Sample.paymentText = .ok r := by
  obtain ⟨l, n, x, hl, -, hn⟩ := Sample.execute_payment
  obtain ⟨a, ha, hh, -⟩ := App.exists_run (Genesis.decode_document Sample.valid_shared) hl
  obtain ⟨r, hc, ⟨b, hb⟩, hbegun, -, -⟩ := Ready.check_eq_deliver (.run ha)
    fun t ht q => by
      rw [Sample.decode_paymentText] at ht
      cases ht
      simp [Sample.payment]
  obtain ⟨b', hb', -, -⟩ := hh.deliver_of_ok Sample.decode_paymentText hn
  have hr : r = .accepted [("bank", "cosmos-sdk/Send")] := by
    rw [hb] at hb'
    cases hb'
    rfl
  exact ⟨a, b, r, .run ha, Sample.decode_paymentText, hc, hb, hr, (hbegun ⟨"xpx", 2⟩).1⟩

end App
end Appchain
