import Appchain.Proofs.GenesisLoading
import Appchain.Proofs.WellFormed

/-!
# A chain starts with a well-formed ledger

The sections of an accepted genesis document are loaded one after another. Once
the trend is there, everything that is asked of the ledger holds, and the
sections that follow preserve it.
-/

namespace Appchain.Ledger

open Outcome

variable {l n : Ledger} {g : Genesis}

theorem AccountsFit.loadAccounts (hl : AccountsFit l.accounts) {seen : List Address}
    {as : List GenesisAccount} (h : l.loadAccounts seen as = .ok n) : AccountsFit n.accounts := by
  induction as generalizing l seen with
  | nil =>
    cases h
    exact hl
  | cons a as ih =>
    have hx : ((l.create a.holder).1.withCoins a.coins).FitsUnder a.holder :=
      (Account.fitsUnder_new a.holder _).withCoins a.coins
    have he : AccountsFit (l.enroll a).accounts := AccountsFit.put (l := (l.create a.holder).2) hl hx
    exact ih he (loadAccounts_cons_eq_ok.mp h).2

namespace WellFormed

theorem loadQueues (hl : l.WellFormed) {seen : List String} {qs : List PacketQueue}
    (h : l.loadQueues seen qs = .ok n) : n.WellFormed := by
  induction qs generalizing l seen with
  | nil =>
    cases h
    exact hl
  | cons q qs ih =>
    obtain ⟨hc, -, k, hk, h⟩ := loadQueues_cons_eq_ok.mp h
    refine ih (foldlM_preserves (fun p _ a b ha hb => ?_) hl hk) h
    obtain ⟨hp, rfl⟩ := loadPacket_eq_ok.mp hb
    exact ha.post (hp ▸ hc)

theorem loadSequences (hl : l.WellFormed) {seen : List String} {cs : List ChainSequence}
    (h : l.loadSequences seen cs = .ok n) : n.WellFormed := by
  induction cs generalizing l seen with
  | nil =>
    cases h
    exact hl
  | cons c cs ih =>
    obtain ⟨hc, -, h⟩ := loadSequences_cons_eq_ok.mp h
    exact ih (hl.setSequence hc _) h

theorem loadBonds (hl : l.WellFormed) {bs : List Bond} (h : bs.foldlM loadBond l = .ok n) :
    n.WellFormed := by
  refine foldlM_preserves (fun b _ a c ha hc => ?_) hl h
  obtain ⟨hp, -, rfl⟩ := loadBond_eq_ok.mp hc
  exact ha.putBond hp

/-- The ledger of an accepted document is well formed. -/
theorem of_genesis (h : ofGenesis g = .ok n) : n.WellFormed := by
  obtain ⟨l₁, l₂, l₃, h⟩ := ofGenesis_eq_ok.mp h
  have hf := loadAccounts_frame h.accounts
  have hfit : AccountsFit l₁.accounts := by
    refine AccountsFit.loadAccounts (fun a x hx => ?_) h.accounts
    rw [initial_eq] at hx
    cases hx
  have hwf : ((l₁.setWork g.mining).setTrend g.trend.trend).WellFormed := by
    rw [hf, initial_eq]
    exact {
      accounts := hfit
      bonds := fun _ _ hb => by cases hb
      work := ⟨_, _, rfl, rfl, h.difficulty⟩
      trend := ⟨_, rfl, h.trend⟩
      limits := ⟨_, _, rfl, rfl, h.signatures⟩
      packets := fun _ _ _ hp => by cases hp
      lengths := fun _ _ hm => by cases hm
      sequences := fun _ _ hm => by cases hm }
  exact ((hwf.loadQueues h.queues).loadSequences h.sequences).loadBonds h.bonds

end WellFormed
end Appchain.Ledger
