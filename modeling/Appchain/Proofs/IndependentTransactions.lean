import Appchain.Proofs.CheckedTransactions
import Appchain.Proofs.IsolatedStores
import Appchain.Proofs.LedgerContents
import Appchain.Proofs.LocalTransactions

/-!
# Independent transactions

Two transactions of local messages that have no party in common may be delivered in
either order. They are answered the same, and the stores hold the same afterwards, so
the next commit has the same hash.
-/

namespace Appchain

open Outcome StoreKey MultiStore

namespace App

variable {a b c : App} {l : Ledger} {text text' : Bytes} {t u : Transaction} {r r' : Response}

/-- What is delivered with success is carried out on the ledger. -/
theorem Holds.exists_execute (h : a.Holds l) (hl : l.Grounded)
    (hd : Transaction.decode .standard text = .ok t) (hb : a.deliver text = .ok (r, b))
    (hr : r.isOk = true) :
    ∃ n, l.execute .deliver t = .ok n ∧ r = .accepted t.events ∧ b.Holds n ∧
      b.lastCommit = a.lastCommit := by
  cases he : l.execute .deliver t with
  | error e =>
    rw [deliver_of_none (h.run_of_error hd he (hl.ordinary_execute .deliver t e he))] at hb
    cases hb
    exact absurd hr e.not_isOk_rejected
  | ok n =>
    obtain ⟨b', hb', hn, hv⟩ := h.deliver_of_ok hd he
    rw [hb'] at hb
    cases hb
    exact ⟨n, rfl, rfl, hn, hv⟩

/-- Applications that hold the same ledger after the same commit go on to the same commit. -/
theorem Holds.commit_eq (hb : b.Holds l) (hc : c.Holds l) (hv : b.lastCommit = c.lastCommit) :
    ∃ info, b.commit = .ok (info, b.committed info) ∧ c.commit = .ok (info, c.committed info) := by
  obtain ⟨info, hi, hversion, hhash⟩ := hb.commit
  obtain ⟨info', hi', hversion', hhash'⟩ := hc.commit
  have hversions : info.version = info'.version := by rw [hversion, hversion', hv]
  have hhashes : info.appHash = info'.appHash := by
    rw [hhash, hhash', hb.stored.contentsInput_eq hc.stored]
  have he : info = info' := by
    cases info
    cases hversions
    cases hhashes
    rfl
  exact ⟨info, hi, he ▸ hi'⟩

/-- Transactions of local messages that have no party in common may change places if all of their
parties have accounts: the answers, the contents of every store and the next commit are the same
either way. -/
theorem Ready.deliver_comm (h : Ready a) (hd : Transaction.decode .standard text = .ok t)
    (hd' : Transaction.decode .standard text' = .ok u) (ht : ∀ m ∈ t.messages, m.IsLocal)
    (hu : ∀ m ∈ u.messages, m.IsLocal) (hdisjoint : ∀ p ∈ t.parties, p ∉ u.parties)
    (haccounts : ∀ p ∈ t.parties ++ u.parties, ∃ x, a.account p = .ok (some x))
    (hb : a.deliver text = .ok (r, b)) (hr : r.isOk = true)
    (hc : b.deliver text' = .ok (r', c)) (hr' : r'.isOk = true) :
    ∃ d e, a.deliver text' = .ok (r', d) ∧ d.deliver text = .ok (r, e) ∧
      (∀ key ∈ application, e.store.contents key = c.store.contents key) ∧
      ∃ info, e.commit = .ok (info, e.committed info) ∧
        c.commit = .ok (info, c.committed info) := by
  obtain ⟨l, hl, hg⟩ := h.holds
  obtain ⟨k, hk, rfl, hbk, hbv⟩ := hl.exists_execute hg hd hb hr
  have hwf : l.WellFormed := hg.wellFormed hk
  obtain ⟨n, hn, rfl, hcn, hcv⟩ := hbk.exists_execute (.inl (hwf.execute hk)) hd' hc hr'
  have hseats : l.Seats (t.parties ++ u.parties) := by
    refine hwf.seats fun p hp => ?_
    obtain ⟨x, hx⟩ := haccounts p hp
    rw [hl.account_eq] at hx
    exact ⟨x, Except.ok.inj hx⟩
  obtain ⟨j, hj, hjn⟩ := Ledger.execute_comm hseats hdisjoint ht hu hk hn
  obtain ⟨d, hdeliver, hdj, hdv⟩ := hl.deliver_of_ok hd' hj
  obtain ⟨e, hdeliver', hen, hev⟩ := hdj.deliver_of_ok hd hjn
  refine ⟨d, e, hdeliver, hdeliver', fun key hkey => ?_,
    hen.commit_eq hcn (by rw [hev, hdv, hcv, hbv])⟩
  -- The ledger leaves the marks of changed parameters open, but no transaction makes any.
  have hkind : key.kind = .persistent ∨ key ∉ transacted := by
    revert key
    decide
  rcases hkind with hkind | hother
  · exact hen.stored.tree_eq hcn.stored hkey hkind
  · rw [contents_deliver hdj.screen hdj.assembled hdeliver' hkey hother,
      contents_deliver hl.screen hl.assembled hdeliver hkey hother,
      contents_deliver hbk.screen hbk.assembled hc hkey hother,
      contents_deliver hl.screen hl.assembled hb hkey hother]

/-! A chain with three accounts, of which one pays another while the third bonds. -/

namespace Sample

def colleague : Address := .ofPublicKey [9]

def trio : Genesis :=
  { genesis with
    accounts := [⟨holder, .single "pow" 5⟩, ⟨friend, .single "pow" 1⟩,
      ⟨colleague, .single "steak" 9⟩] }

def gift : Transaction where
  messages := [.send ⟨holder, friend, .single "pow" 3⟩]
  fee := ⟨.single "pow" 1, 0⟩
  signatures := [⟨"07", "aa", 0, 0⟩]
  memo := ""

/-- Two stakes with a release in between, for a fee that is collected beside the other one. -/
def pledge : Transaction where
  messages := [.bond ⟨colleague, ⟨"steak", 4⟩, "0a"⟩, .unbond ⟨colleague⟩,
    .bond ⟨colleague, ⟨"steak", 3⟩, "0b"⟩]
  fee := ⟨.single "steak" 2, 0⟩
  signatures := [⟨"09", "aa", 2, 0⟩]
  memo := ""

theorem valid_trio : trio.Valid where
  fees := Coins.valid_empty
  accounts := by
    simp only [trio, List.forall_mem_cons]
    exact ⟨Coins.valid_single (by decide) 5, Coins.valid_single (by decide) 1,
      Coins.valid_single (by decide) 9, nofun⟩
  packets := nofun

theorem valid_gift : gift.Valid where
  fee := Coins.valid_single (by decide) 1
  messages := List.forall_mem_singleton.mpr (Coins.valid_single (by decide) 3)

theorem valid_pledge : pledge.Valid where
  fee := Coins.valid_single (by decide) 2
  messages := by simp [pledge, Message.Valid]

theorem parties_apart : ∀ p ∈ gift.parties, p ∉ pledge.parties := by decide +kernel

theorem execute_gift_pledge : ∃ l k n, Ledger.ofGenesis trio = .ok l ∧
    l.execute .deliver gift = .ok k ∧ k.execute .deliver pledge = .ok n ∧
    ∀ p ∈ gift.parties ++ pledge.parties, ∃ x, l.accounts.get? p = some x := by
  have h : ((Ledger.ofGenesis trio).toOption.bind fun l => (l.execute .deliver gift).toOption.bind
      fun k => (k.execute .deliver pledge).toOption.map fun _ =>
        (gift.parties ++ pledge.parties).all fun p => (l.accounts.get? p).isSome) = some true := by
    decide +kernel
  obtain ⟨l, hl, h⟩ := Option.bind_eq_some_iff.mp h
  obtain ⟨k, hk, h⟩ := Option.bind_eq_some_iff.mp h
  obtain ⟨n, hn, h⟩ := Option.map_eq_some_iff.mp h
  refine ⟨l, k, n, toOption_eq_some.mp hl, toOption_eq_some.mp hk, toOption_eq_some.mp hn, ?_⟩
  exact fun p hp => Option.isSome_iff_exists.mp (List.all_eq_true.mp h p hp)

end Sample

/-- A payment and a bond change places. -/
theorem Ready.deliver_comm_gift_pledge :
    ∃ a b c d e r r', Ready a ∧
      a.deliver (Sample.encoded Sample.gift) = .ok (r, b) ∧
      b.deliver (Sample.encoded Sample.pledge) = .ok (r', c) ∧ r.isOk = true ∧ r'.isOk = true ∧
      a.deliver (Sample.encoded Sample.pledge) = .ok (r', d) ∧
      d.deliver (Sample.encoded Sample.gift) = .ok (r, e) ∧
      (∀ key ∈ application, e.store.contents key = c.store.contents key) ∧
      ∃ info, e.commit = .ok (info, e.committed info) ∧
        c.commit = .ok (info, c.committed info) := by
  obtain ⟨l, k, n, hl, hk, hn, haccounts⟩ := Sample.execute_gift_pledge
  have hgift := Transaction.decode_encoded Sample.valid_gift
  have hpledge := Transaction.decode_encoded Sample.valid_pledge
  obtain ⟨a, ha, hh, -⟩ := exists_run (Genesis.decode_document Sample.valid_trio) hl
  obtain ⟨b, hb, hbk, -⟩ := hh.deliver_of_ok hgift hk
  obtain ⟨c, hc, -, -⟩ := hbk.deliver_of_ok hpledge hn
  obtain ⟨d, e, hd, he, hcontents, hcommit⟩ := Ready.deliver_comm (.run ha) hgift hpledge
    (List.forall_mem_singleton.mpr trivial) (by simp [Sample.pledge, Message.IsLocal])
    Sample.parties_apart
    (fun p hp => by
      obtain ⟨x, hx⟩ := haccounts p hp
      exact ⟨x, hx ▸ hh.account_eq p⟩)
    hb rfl hc rfl
  exact ⟨a, b, c, d, e, _, _, .run ha, hb, hc, rfl, rfl, hd, he, hcontents, hcommit⟩

end App
end Appchain
