import Appchain.Proofs.Exports
import Appchain.Proofs.LoadedGenesis
import Appchain.Proofs.Replay

/-!
# Reissued accounts

A document lists accounts by address and coins only. A chain that starts with an
exported document has the same accounts, with the numbers of their places in it,
without keys and at sequence zero. A transaction that was accepted before the
export may therefore be accepted once more, if it names just that.
-/

namespace Appchain

open Outcome

namespace Ledger

variable {l k n start : Ledger} {g : Genesis} {us : List Transaction}

/-- No account has a display name. -/
def Nameless (l : Ledger) : Prop := ∀ a x, l.accounts.get? a = some x → x.name = some ""

theorem Nameless.of_genesis (h : ofGenesis g = .ok n) : n.Nameless := by
  obtain ⟨l₁, l₂, l₃, hload⟩ := ofGenesis_eq_ok.mp h
  intro a x hx
  by_cases ha : ∃ b ∈ g.accounts, b.holder = a
  · obtain ⟨b, hb, rfl⟩ := ha
    obtain ⟨i, hi, rfl⟩ := List.mem_iff_getElem.mp hb
    rw [hload.get?_accounts i hi] at hx
    cases hx
    rfl
  · rw [hload.get?_accounts_of_ne fun b hb he => ha ⟨b, hb, he⟩] at hx
    cases hx

theorem Nameless.executes (hl : l.Nameless) {t : Transaction} (h : Executes t l k n) :
    n.Nameless := by
  intro a y hy
  cases hx : l.accounts.get? a with
  | none =>
    obtain ⟨number, c, rfl⟩ := (h.new hx).2 y hy
    rfl
  | some x =>
    obtain ⟨z, hz, hname, -⟩ := h.identity hx
    rw [hy] at hz
    cases hz
    exact hname.trans (hl a x hx)

theorem Nameless.of_run (hs : ofGenesis g = .ok start)
    (h : us.foldlM (fun l t => l.execute .deliver t) start = .ok l) : l.Nameless :=
  foldlM_execute (P := fun l _ => l.Nameless) (fun _ _ _ _ _ _ hl _ hk => hl.executes hk) hs
    (.of_genesis hs) h

/-- An account keeps its number as long as the chain runs. -/
theorem number_eq_of_run (hs : ofGenesis g = .ok start)
    (h : us.foldlM (fun l t => l.execute .deliver t) start = .ok l) {a : Address} {x y : Account}
    (hx : start.accounts.get? a = some x) (hy : l.accounts.get? a = some y) : y.number = x.number := by
  obtain ⟨z, hz, hnumber⟩ : ∃ z, l.accounts.get? a = some z ∧ z.number = x.number := by
    refine foldlM_execute (P := fun l _ => ∃ z, l.accounts.get? a = some z ∧ z.number = x.number)
      (fun l k n _ t _ hl _ hk => ?_) hs ⟨x, hx, rfl⟩ h
    obtain ⟨z, hz, hnumber⟩ := hl
    obtain ⟨w, hw, -, hw'⟩ := hk.identity hz
    exact ⟨w, hw, hw'.trans hnumber⟩
  rw [hy] at hz
  cases hz
  exact hnumber

section Started

variable {w : Mining.State} (hl : l.WellFormed) (hn : ofGenesis (l.listed w) = .ok n)
include hl hn

/-- The accounts of a ledger are numbered by their places when its document is loaded. -/
theorem get?_started (i : Nat) (h : i < l.accounts.entries.length) :
    n.accounts.get? l.accounts.entries[i].1 =
      some ((GenesisAccount.ofAccount l.accounts.entries[i].2).numbered (.ofNat i)) := by
  obtain ⟨l₁, l₂, l₃, hload⟩ := ofGenesis_eq_ok.mp hn
  have hi : i < (l.listed w).accounts.length := (List.length_map _).symm ▸ h
  have hx : (l.listed w).accounts[i] = .ofAccount l.accounts.entries[i].2 := List.getElem_map _
  have hissued := hload.get?_accounts i hi
  rw [hx] at hissued
  rw [← (hl.of_mem_accounts (List.getElem_mem h)).2]
  exact hissued

theorem get?_started_of_none {a : Address} (ha : l.accounts.get? a = none) :
    n.accounts.get? a = none := by
  obtain ⟨l₁, l₂, l₃, hload⟩ := ofGenesis_eq_ok.mp hn
  apply hload.get?_accounts_of_ne
  rintro x hx rfl
  obtain ⟨e, he, rfl⟩ := List.mem_map.mp hx
  obtain ⟨hget, haddress⟩ := hl.of_mem_accounts he
  rw [← haddress] at hget
  exact Option.some_ne_none _ (hget.symm.trans ha)

end Started

/-- Whoever has signed a transaction has an account. -/
theorem Tallies.exists_account (h : l.Tallies us) {t : Transaction} (ht : t ∈ us) {a : Address}
    (ha : a ∈ t.signers) : ∃ x, l.accounts.get? a = some x := by
  apply Option.ne_none_iff_exists'.mp
  intro hx
  have hpos : 0 < signedBy a us := List.countP_pos_iff.mpr ⟨t, ht, decide_eq_true ha⟩
  exact Nat.ne_of_gt hpos (h.absent a hx)

end Ledger

namespace App

variable {a b c : App} {l n : Ledger} {g : Genesis} {xs : List Account} {ts us : List Transaction}
  {t : Transaction} {text : Bytes}

/-- The accounts of one application, in ascending order, and those that another one has instead:
for each the same address, coins and name, with its place as number, without key and unused. -/
structure Reissued (xs : List Account) (a b : App) : Prop where
  listed : a.read Accounts.all = .ok xs
  ascending : Ascending Account.address xs
  account : ∀ i (h : i < xs.length), a.account xs[i].address = .ok (some xs[i]) ∧
    b.account xs[i].address = .ok (some ((GenesisAccount.ofAccount xs[i]).numbered (.ofNat i))) ∧
    xs[i].name = some ""
  no_account : ∀ p, (∀ x ∈ xs, x.address ≠ p) → a.account p = .ok none ∧ b.account p = .ok none

/-- Every signature names the place of its account in the list as number, and as sequence how many
transactions its address has signed since. -/
def Redirected (xs : List Account) (us : List Transaction) (t : Transaction) : Prop :=
  ∀ e ∈ t.signed, ∃ i, ∃ h : i < xs.length, xs[i].address = e.1 ∧ e.2.accountNumber = .ofNat i ∧
    e.2.sequence = .ofNat (signedBy e.1 us)

theorem Holds.reissued {w : Mining.State} (ha : a.Holds l) (hl : l.WellFormed) (hname : l.Nameless)
    (hb : b.Holds n) (hn : Ledger.ofGenesis (l.listed w) = .ok n) :
    Reissued (l.accounts.entries.map Prod.snd) a b where
  listed := ha.read_eq Accounts.reads_all
  ascending := .of_map l.accounts fun _ he => (hl.of_mem_accounts he).2
  account i h := by
    have hi : i < l.accounts.entries.length := List.length_map Prod.snd ▸ h
    obtain ⟨hget, haddress⟩ := hl.of_mem_accounts (List.getElem_mem hi)
    have hx : (l.accounts.entries.map Prod.snd)[i] = l.accounts.entries[i].2 := List.getElem_map _
    rw [hx, haddress, ha.account_eq, hb.account_eq, hget, Ledger.get?_started hl hn i hi]
    exact ⟨rfl, rfl, hname _ _ hget⟩
  no_account p hp := by
    have hnone : l.accounts.get? p = none := by
      refine Option.eq_none_iff_forall_ne_some.mpr fun x hx => ?_
      have he := (OrderedMap.mem_entries_iff _ _ _).mpr hx
      exact hp x (List.mem_map.mpr ⟨_, he, rfl⟩) (hl.of_mem_accounts he).2
    rw [ha.account_eq, hb.account_eq, hnone, Ledger.get?_started_of_none hl hn hnone]
    exact ⟨rfl, rfl⟩

theorem Reissued.exists_place (hx : Reissued xs a b) {p : Address} {x : Account}
    (hp : a.account p = .ok (some x)) : ∃ i, ∃ h : i < xs.length, xs[i].address = p := by
  apply Classical.byContradiction
  intro hne
  obtain ⟨hnone, -⟩ := hx.no_account p fun y hy he => by
    obtain ⟨i, hi, rfl⟩ := List.mem_iff_getElem.mp hy
    exact hne ⟨i, hi, he⟩
  rw [hp] at hnone
  cases hnone

/-- A transaction of an earlier chain is turned away unless it has been redirected. -/
theorem Reissued.redirected_or_rejected {g' : Genesis} (hx : Reissued xs a b) (ha : Run g ts a)
    (hb : Run g' [] b) (hc : Continues b us c) (ht : t ∈ ts)
    (hd : Transaction.decode .standard text = .ok t) :
    Redirected xs us t ∨ ∃ r, c.deliver text = .ok (r, c) ∧ ¬ r.isOk = true := by
  obtain ⟨start, l, hs, hts, hl, -⟩ := ha.holds
  obtain ⟨start', n, hs', hnil, hbn, -⟩ := hb.holds
  cases hnil
  obtain ⟨n', m, hn', hus, hcm, hm⟩ := (hb.continues hc).holds
  rw [hs'] at hn'
  cases hn'
  cases he : m.execute .deliver t with
  | error e =>
    have hr := hcm.run_of_error hd he (hm.ordinary_execute .deliver t e he)
    exact .inr ⟨_, deliver_of_none hr, e.not_isOk_rejected⟩
  | ok m' =>
    obtain ⟨k, hk⟩ := Ledger.exists_executes hm he
    refine .inl fun e hsigned => ?_
    obtain ⟨y, hy⟩ :=
      (Ledger.Tallies.of_run hs hts).exists_account ht (List.of_mem_zip hsigned).1
    obtain ⟨i, hi, hp⟩ := hx.exists_place ((hl.account_eq e.1).trans (congrArg _ hy))
    obtain ⟨-, hissued, -⟩ := hx.account i hi
    rw [hp, hbn.account_eq] at hissued
    obtain ⟨z, _, hz, hsigns, -⟩ := hk.authorizes.signed e hsigned
    refine ⟨i, hi, hp, ?_, ?_⟩
    · exact hsigns.number.trans (Ledger.number_eq_of_run hs' hus (Except.ok.inj hissued) hz)
    · exact hsigns.sequence.trans ((Ledger.Tallies.of_run hs' hus).sequence_eq e.1 z hz)

/-- An application is exported, and the document starts another one. -/
theorem Holds.exists_started (h : a.Holds l) (hl : l.WellFormed) (chain : String) :
    ∃ w n b, l.genesis = .ok (l.listed w) ∧ Ledger.ofGenesis (l.listed w) = .ok n ∧
      a.exportState = .ok ((l.listed w).document, (l.listed w).staking.validators) ∧
      (opened ∅ .initial).initChain chain (l.listed w).document =
        .ok ((l.listed w).staking.validators, b) ∧
      b.Holds n ∧ Run (l.listed w) [] b := by
  obtain ⟨w, n, hd, hc, hn⟩ := hl.exists_ofGenesis
  have hg : l.genesis = .ok (l.listed w) := Ledger.genesis_eq_ok hd hc
  have hdecode := Genesis.decode_document (h.stored.valid.listed w)
  obtain ⟨b, hb, hbn, -⟩ := initChain_of_ok hdecode hn chain
  exact ⟨w, n, b, hg, hn, h.exportState hg, hb, hbn, .start fresh_eq hdecode hb⟩

/-- The document that is exported after any run starts another application, with accounts for the
same addresses. Each has the same coins and name, but its place as number, no key, and sequence zero.
Transactions that were accepted before are turned away, whenever they come, unless they name just
that. -/
theorem Run.reissues_accounts (h : Run g ts a) (chain : String) :
    ∃ document validators f b xs, a.exportState = .ok (document, validators) ∧ fresh = .ok f ∧
      f.initChain chain document = .ok (validators, b) ∧ Reissued xs a b ∧
      ∀ us c t text, Continues b us c → t ∈ ts → Transaction.decode .standard text = .ok t →
        Redirected xs us t ∨ ∃ r, c.deliver text = .ok (r, c) ∧ ¬ r.isOk = true := by
  obtain ⟨start, l, hs, hts, hl, hwf⟩ := h.holds
  obtain ⟨w, n, b, -, hn, he, hi, hb, hrun⟩ := hl.exists_started hwf chain
  have hx := hl.reissued hwf (.of_run hs hts) hb hn
  exact ⟨_, _, _, b, _, he, fresh_eq, hi, hx,
    fun us c t text hc ht hd => hx.redirected_or_rejected h hrun hc ht hd⟩

namespace Sample

def largest : Address := ⟨List.replicate 20 255, rfl⟩

def larger : Address := ⟨List.replicate 20 254, rfl⟩

/-- A chain with accounts that are not listed in ascending order. -/
def scattered : Genesis :=
  { genesis with
    accounts := [⟨holder, .single "pow" 5⟩, ⟨largest, .single "pow" 1⟩, ⟨larger, .single "pow" 1⟩] }

theorem valid_scattered : scattered.Valid where
  fees := Coins.valid_empty
  accounts := by
    simp only [scattered, List.forall_mem_cons]
    exact ⟨Coins.valid_single (by decide) 5, Coins.valid_single (by decide) 1,
      Coins.valid_single (by decide) 1, nofun⟩
  packets := nofun

/-- The key and the sequence of the one who has answered, and the number of the account that is
listed second. -/
def record (l : Ledger) : Option (Option String × UInt64 × UInt64) := do
  let x ← l.accounts.get? holder
  let y ← l.accounts.get? largest
  return (x.publicKey, x.sequence, y.number)

theorem exists_replay : ∃ l n m m', Ledger.ofGenesis scattered = .ok l ∧
    l.execute .deliver answer = .ok n ∧ n.genesis.bind Ledger.ofGenesis = .ok m ∧
    m.execute .deliver answer = .ok m' ∧ record n = some (some "07", 1, 1) ∧
    record m = some (none, 0, 2) := by
  have h : ((Ledger.ofGenesis scattered).toOption.bind fun l =>
      (l.execute .deliver answer).toOption.bind fun n =>
      (n.genesis.bind Ledger.ofGenesis).toOption.bind fun m =>
      (m.execute .deliver answer).toOption.map fun _ => (record n, record m)) =
      some (some (some "07", 1, 1), some (none, 0, 2)) := by decide +kernel
  obtain ⟨l, hl, h⟩ := Option.bind_eq_some_iff.mp h
  obtain ⟨n, hn, h⟩ := Option.bind_eq_some_iff.mp h
  obtain ⟨m, hm, h⟩ := Option.bind_eq_some_iff.mp h
  obtain ⟨m', hm', he⟩ := Option.map_eq_some_iff.mp h
  exact ⟨l, n, m, m', toOption_eq_some.mp hl, toOption_eq_some.mp hn, toOption_eq_some.mp hm,
    toOption_eq_some.mp hm', congrArg Prod.fst he, congrArg Prod.snd he⟩

def Shows (a : App) (key : Option String) (sequence number : UInt64) : Prop :=
  ∃ x y, a.account holder = .ok (some x) ∧ x.publicKey = key ∧ x.sequence = sequence ∧
    a.account largest = .ok (some y) ∧ y.number = number

theorem shows_of_record {key : Option String} {sequence number : UInt64} (ha : a.Holds l)
    (h : record l = some (key, sequence, number)) : Shows a key sequence number := by
  obtain ⟨x, hx, h⟩ := Option.bind_eq_some_iff.mp h
  obtain ⟨y, hy, h⟩ := Option.bind_eq_some_iff.mp h
  cases h
  exact ⟨x, y, by rw [ha.account_eq, hx], rfl, rfl, by rw [ha.account_eq, hy], rfl⟩

/-- The answer is accepted, the chain is exported, and the chain that starts with the document
accepts it again. -/
theorem exists_replayed : ∃ a document validators b c, Run scattered [answer] a ∧
    a.exportState = .ok (document, validators) ∧
    (opened ∅ .initial).initChain "" document = .ok (validators, b) ∧ Shows a (some "07") 1 1 ∧
    Shows b none 0 2 ∧ b.accepted (.deliver answerText) = some answer ∧
    Continues b [answer] c := by
  obtain ⟨l, n, m, m', hl, hn, hm, hm', hrecord, hrecord'⟩ := exists_replay
  obtain ⟨-, a, -, -, -, ha⟩ :=
    exists_run_accepting (Genesis.decode_document valid_scattered) hl decode_answerText hn
  obtain ⟨_, k, hl', hk, hh, hwf⟩ := ha.holds
  rw [hl] at hl'
  cases hl'
  rw [List.foldlM_cons, hn] at hk
  cases hk
  obtain ⟨w, k, b, hg, hw, he, hi, hb, -⟩ := hh.exists_started hwf ""
  rw [hg] at hm
  obtain rfl : k = m := Except.ok.inj (hw.symm.trans hm)
  obtain ⟨c, hc, -, -⟩ := hb.deliver_of_ok decode_answerText hm'
  have hacc : b.accepted (.deliver answerText) = some answer := by
    rw [accepted_deliver hc, decode_answerText]
    rfl
  have hcont : Continues b ([] ++ (b.accepted (.deliver answerText)).toList) c := by
    refine .step .refl nofun ?_
    change (b.deliver answerText).map _ = _
    rw [hc]
    rfl
  rw [hacc] at hcont
  exact ⟨a, _, _, b, c, ha, he, hi, shows_of_record hh hrecord, shows_of_record hb hrecord', hacc, hcont⟩

end Sample

/-- A transaction that has been accepted is accepted again; its signer has lost key and sequence, and
the second account has become the third. -/
theorem Run.replays_answer :
    ∃ a document validators f b, Run Sample.scattered [Sample.answer] a ∧
      a.exportState = .ok (document, validators) ∧ fresh = .ok f ∧
      f.initChain "" document = .ok (validators, b) ∧ Sample.Shows a (some "07") 1 1 ∧
      Sample.Shows b none 0 2 ∧ b.accepted (.deliver Sample.answerText) = some Sample.answer := by
  obtain ⟨a, document, validators, b, -, ha, he, hi, hshows, hshows', hacc, -⟩ :=
    Sample.exists_replayed
  exact ⟨a, document, validators, _, b, ha, he, fresh_eq, hi, hshows, hshows', hacc⟩

/-- The answer is not accepted a third time: its signature names sequence zero, which has passed. -/
theorem Run.reissues_accounts_answer :
    ∃ a document validators f b c xs r, Run Sample.scattered [Sample.answer] a ∧
      a.exportState = .ok (document, validators) ∧ fresh = .ok f ∧
      f.initChain "" document = .ok (validators, b) ∧ Reissued xs a b ∧
      Continues b [Sample.answer] c ∧ c.deliver Sample.answerText = .ok (r, c) ∧ ¬ r.isOk = true := by
  obtain ⟨a, document, validators, b, c, ha, he, hi, -, -, -, hc⟩ := Sample.exists_replayed
  obtain ⟨document', validators', f, b', xs, he', hf, hi', hx, hold⟩ := Run.reissues_accounts ha ""
  rw [he] at he'
  cases he'
  rw [fresh_eq] at hf
  cases hf
  rw [hi] at hi'
  cases hi'
  have hnot : ¬ Redirected xs [Sample.answer] Sample.answer := by
    intro h
    obtain ⟨i, _, -, -, hs⟩ := h (Sample.holder, ⟨"07", "aa", 0, 0⟩) (List.mem_singleton.mpr rfl)
    exact absurd hs (by decide +kernel)
  obtain ⟨r, hr, hrejected⟩ := (hold [Sample.answer] c Sample.answer Sample.answerText hc
    (List.mem_singleton.mpr rfl) Sample.decode_answerText).resolve_left hnot
  exact ⟨a, document, validators, _, b, c, xs, r, ha, he, fresh_eq, hi, hx, hc, hr, hrejected⟩

end App
end Appchain
