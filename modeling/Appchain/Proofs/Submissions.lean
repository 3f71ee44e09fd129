import Appchain.Proofs.Readiness

/-!
# Transactions that are handed in

Checking a transaction and delivering one that is rejected leave no trace: the
deliveries that are accepted answer the same and lead to the same state when they
are all there is.
-/

namespace Appchain

open Outcome

namespace App

variable {a b : App} {before cs : List Call} {l : Ledger} {text : Bytes}

/-- Whether a transaction is handed in. -/
def Call.submits : Call → Bool
  | .check _ | .deliver _ => true
  | _ => false

/-- The transaction that is delivered. -/
def Call.transaction? : Call → Option Transaction
  | .deliver text => (Transaction.decode .standard text).toOption
  | _ => none

/-- Whether a call is a delivery and has been answered with success. -/
def isAccepted : Call × Except AppError Reply → Bool
  | (.deliver _, .ok (.response r)) => r.isOk
  | _ => false

/-- The deliveries among some calls that have been accepted, with their answers. -/
def acceptedOf (cs : List Call) (replies : List (Except AppError Reply)) :
    List (Call × Except AppError Reply) := (cs.zip replies).filter isAccepted

theorem acceptedOf_cons (c : Call) (cs : List Call) (r : Except AppError Reply)
    (rs : List (Except AppError Reply)) :
    acceptedOf (c :: cs) (r :: rs) =
      if isAccepted (c, r) then (c, r) :: acceptedOf cs rs else acceptedOf cs rs := by
  unfold acceptedOf
  rw [List.zip_cons_cons, List.filter_cons]

/-- Only what is accepted has writes. -/
theorem isOk_of_run {mode : Mode} {r : Response} {w : Writes} (h : a.run mode text = .ok (r, some w)) :
    r.isOk = true := by
  unfold run at h
  split at h
  · cases h
  · split at h
    · cases h
    · split at h
      · cases h
        rfl
      · cases h
      · cases h

/-- The writes of a transaction are kept only if it is accepted. -/
theorem eq_of_deliver {r : Response} (h : a.deliver text = .ok (r, b)) (hr : r.isOk = false) :
    b = a := by
  unfold deliver at h
  obtain ⟨⟨r', w⟩, hw, h⟩ := bind_eq_ok.mp h
  cases w with
  | none =>
    cases h
    rfl
  | some w =>
    obtain ⟨s, -, h⟩ := bind_eq_ok.mp h
    cases h
    rw [isOk_of_run hw] at hr
    cases hr

/-- What is not accepted changes nothing. -/
theorem eq_of_not_isAccepted {c : Call} (hc : c.submits = true)
    (h : isAccepted (c, (a.call c).1) = false) : (a.call c).2 = a := by
  cases c with
  | check text => rfl
  | deliver text =>
    change isAccepted (_, (a.settle .response (a.deliver text)).1) = false at h
    change (a.settle .response (a.deliver text)).2 = a
    cases hd : a.deliver text with
    | error e => rfl
    | ok r =>
      rw [hd] at h
      exact eq_of_deliver hd h
  | _ => cases hc

/-- The deliveries that are accepted answer the same by themselves and lead to the same state. -/
theorem runAll_acceptedOf (a : App) (hcs : ∀ c ∈ cs, c.submits = true) :
    runAll App.call a ((acceptedOf cs (runAll App.call a cs).1).map Prod.fst) =
      ((acceptedOf cs (runAll App.call a cs).1).map Prod.snd, (runAll App.call a cs).2) := by
  -- What is left out has not moved the state, so both runs are in the same state all along.
  induction cs generalizing a with
  | nil => rfl
  | cons c cs ih =>
    obtain ⟨hc, hcs⟩ := List.forall_mem_cons.mp hcs
    have hi := ih (a.call c).2 hcs
    rw [runAll, acceptedOf_cons]
    cases h : isAccepted (c, (a.call c).1) with
    | true =>
      rw [if_pos rfl, List.map_cons, runAll, hi]
      rfl
    | false =>
      rw [eq_of_not_isAccepted hc h] at hi ⊢
      rw [if_neg Bool.false_ne_true]
      exact hi

/-- The transactions that have been accepted, in order. -/
def acceptedTransactions (cs : List Call) (replies : List (Except AppError Reply)) :
    List Transaction := (acceptedOf cs replies).filterMap fun e => e.1.transaction?

theorem acceptedTransactions_cons (c : Call) (cs : List Call) (r : Except AppError Reply)
    (rs : List (Except AppError Reply)) :
    acceptedTransactions (c :: cs) (r :: rs) =
      acceptedTransactions [c] [r] ++ acceptedTransactions cs rs := by
  unfold acceptedTransactions
  rw [acceptedOf_cons, acceptedOf_cons, ← List.filterMap_append]
  split <;> rfl

theorem acceptedTransactions_deliver {r : Response} (h : a.deliver text = .ok (r, b)) :
    acceptedTransactions [.deliver text] [.ok (.response r)] =
      (a.accepted (.deliver text)).toList := by
  rw [accepted_deliver h]
  unfold acceptedTransactions
  rw [acceptedOf_cons]
  change List.filterMap _ (if r.isOk then _ else _) = _
  cases r.isOk with
  | true =>
    change [Call.deliver text].filterMap Call.transaction? = _
    simp only [List.filterMap_cons, List.filterMap_nil, Call.transaction?]
    cases (Transaction.decode .standard text).toOption <;> rfl
  | false => rfl

/-- What is handed in is answered, and the ledger changes by the transaction if it is accepted. -/
theorem Holds.submit (h : a.Holds l) (ho : ∀ mode t, Ordinary (l.execute mode t)) {c : Call}
    (hc : c.submits = true) :
    ∃ r n, (a.call c).1 = .ok (.response r) ∧ (a.call c).2.Holds n ∧
      (acceptedTransactions [c] [(a.call c).1]).foldlM (fun l t => l.execute .deliver t) l = .ok n := by
  cases c with
  | check text =>
    obtain ⟨r, w, hr, -⟩ := h.run_of_ordinary (ho .check) text
    refine ⟨r, l, ?_, h, rfl⟩
    change ((Prod.fst <$> a.run .check text).map Reply.response) = _
    rw [hr]
    rfl
  | deliver text =>
    obtain ⟨r, b, n, hb, hn, he⟩ := h.deliver_of_ordinary (ho .deliver) text
    rw [call_deliver hb, acceptedTransactions_deliver hb]
    exact ⟨r, n, rfl, hn, he⟩
  | _ => cases hc

/-- All that is handed in is answered, and the accepted transactions are carried out. -/
theorem Holds.submitAll (h : a.Holds l) (hl : Founded before l) (hcs : ∀ c ∈ cs, c.submits = true) :
    (∀ r ∈ (runAll App.call a cs).1, ∃ x, r = .ok (.response x)) ∧
      ∃ n, (runAll App.call a cs).2.Holds n ∧
        (acceptedTransactions cs (runAll App.call a cs).1).foldlM
          (fun l t => l.execute .deliver t) l = .ok n := by
  induction cs generalizing a l with
  | nil => exact ⟨nofun, l, h, rfl⟩
  | cons c cs ih =>
    obtain ⟨hc, hcs⟩ := List.forall_mem_cons.mp hcs
    obtain ⟨r, n, hr, hn, he⟩ := h.submit hl.ordinary_execute hc
    have hln : Founded before n := foldlM_preserves (fun t _ k m hk he => hk.execute he) hl he
    obtain ⟨hrs, m, hm, hes⟩ := ih hn hln hcs
    rw [runAll, acceptedTransactions_cons, List.foldlM_append, he]
    exact ⟨List.forall_mem_cons.mpr ⟨⟨r, hr⟩, hrs⟩, m, hm, hes⟩

/-- Of all that is handed in before a commit, only the deliveries that are accepted matter. By
themselves they get the same answers and lead to the same commit and the same state. On a ready
chain everything is answered by a response, and what the stores hold in the end is what the accepted
transactions make of what they held. -/
theorem only_accepted_matter (a : App) (hcs : ∀ c ∈ cs, c.submits = true) :
    ∃ replies reply b,
      runAll App.call a (cs ++ [.commit]) = (replies ++ [reply], b) ∧
      runAll App.call a ((acceptedOf cs replies).map Prod.fst ++ [.commit]) =
        ((acceptedOf cs replies).map Prod.snd ++ [reply], b) ∧
      ∀ before, Reached before a → before.length < UInt64.size → a.phase = .ready →
        (∀ r ∈ replies, ∃ x, r = .ok (.response x)) ∧ (∃ info, reply = .ok (.info info)) ∧
        ∃ l n, a.Holds l ∧ b.Holds n ∧
          (acceptedTransactions cs replies).foldlM (fun l t => l.execute .deliver t) l = .ok n := by
  refine ⟨(runAll App.call a cs).1, ((runAll App.call a cs).2.call .commit).1,
    ((runAll App.call a cs).2.call .commit).2, ?_, ?_, fun before h hn hp => ?_⟩
  · rw [runAll_append]
    rfl
  · rw [runAll_append, runAll_acceptedOf a hcs]
    rfl
  · obtain ⟨l, k, hl, -⟩ := h.traced hn
    have hh := hl.holds hp
    obtain ⟨hrs, n, hn, he⟩ := hh.submitAll (hl.founded hp) hcs
    obtain ⟨info, hc, -⟩ := exists_call_commit hn.assembled
    rw [hc]
    exact ⟨hrs, ⟨info, rfl⟩, l, n, hh, hn.committed info, he⟩

/-- Between a check and bytes that are no transaction, an answer that is accepted might as well
have been alone. -/
theorem only_accepted_matter_answer :
    ∃ a replies r info b, Reached [.initChain "" Sample.genesis.document] a ∧
      runAll App.call a [.check Sample.answerText, .deliver [], .deliver Sample.answerText, .commit] =
        (replies ++ [.ok (.info info)], b) ∧
      runAll App.call a [.deliver Sample.answerText, .commit] =
        ([.ok (.response r), .ok (.info info)], b) := by
  obtain ⟨l, n, hl, hn⟩ := Sample.execute_answer
  obtain ⟨a, hi, ha, -⟩ := initChain_of_ok (Genesis.decode_document Sample.valid_genesis) hl ""
  have hr : Reached [.initChain "" Sample.genesis.document] a := by
    have h := (Reached.fresh fresh_eq).call (.initChain "" Sample.genesis.document)
    rw [call_initChain hi] at h
    exact h
  have hnone : (Transaction.decode .standard []).toOption = none := by decide +kernel
  obtain ⟨e, hd⟩ := toOption_eq_none.mp hnone
  have hbad := call_deliver (deliver_of_none (ha.run_of_codec .deliver hd))
  obtain ⟨c, hgood, -, -⟩ := ha.deliver_of_ok Sample.decode_answerText hn
  have hcs : ∀ c ∈ [Call.check Sample.answerText, .deliver [], .deliver Sample.answerText],
      c.submits = true := by decide
  obtain ⟨replies, reply, b, hall, haccepted, hready⟩ := only_accepted_matter a hcs
  obtain ⟨-, ⟨info, rfl⟩, -⟩ := hready _ hr (by decide) ha.phase
  refine ⟨a, replies, .accepted Sample.answer.events, info, b, hr, hall, ?_⟩
  have hreplies : replies = [(a.call (.check Sample.answerText)).1, .ok (.response (.rejected (.codec e))),
      .ok (.response (.accepted Sample.answer.events))] := by
    have h := congrArg Prod.fst hall
    rw [runAll_append] at h
    rw [← (List.append_inj' h rfl).1]
    change [_, (a.call (.deliver [])).1,
      ((a.call (.deliver [])).2.call (.deliver Sample.answerText)).1] = _
    rw [hbad, call_deliver hgood]
  rw [hreplies] at haccepted
  exact haccepted

end App
end Appchain
