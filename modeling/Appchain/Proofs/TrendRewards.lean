import Appchain.Proofs.Transfers

/-!
# Rewards for the trend

Any text but the empty one may become the trend, and may be given as an answer. Coins are
named more strictly, which only shows when a right answer is paid: it is accepted exactly
if the trend can name coins and the balance has room for the reward. What is refused
changes nothing, and where an answer is only checked it is not refused at all.
-/

namespace Appchain

open Context Exec Outcome

theorem Coins.ofList_singleton (denom : String) (n : UInt64) :
    ofList [⟨denom, n⟩] =
      if validDenom denom then .ok (single denom n) else .error (.invalidDenom denom) := by
  unfold ofList collect
  cases validDenom denom <;> rfl

namespace Context

variable {c d : Context} {n : UInt64} {a : Address} {trend : String}

/-- One denomination has room for more coins. -/
theorem hasRoom_single {denom : String} {amount : UInt64} :
    c.HasRoom a (.single denom amount) ↔
      ((c.balance a).amountOf denom).toNat + amount.toNat < UInt64.size := by
  unfold HasRoom
  constructor
  · intro h
    have hd := h denom
    rwa [Coins.amountOf_single, if_pos rfl] at hd
  · intro h e
    rw [Coins.amountOf_single]
    split
    · next he => rwa [he]
    · exact ((c.balance a).amountOf e).toNat_lt_size

/-- The context after the trend has been stored. -/
def withTrend (c : Context) (trend : String) : Context :=
  c.wrote .main Trend.key (Bytes.ofString trend)

theorem account?_withTrend (c : Context) (trend : String) (a : Address) :
    (c.withTrend trend).account? a = c.account? a := by
  unfold account? withTrend
  rw [c.contents_wrote_of_ne (by decide)]

theorem counter_withTrend (c : Context) (trend : String) :
    (c.withTrend trend).counter = c.counter := by
  unfold counter stored? withTrend
  rw [c.contents_wrote_of_ne (by decide)]

theorem ReadsAccounts.withTrend (h : c.ReadsAccounts) (trend : String) :
    (c.withTrend trend).ReadsAccounts where
  opens := h.opens.wrote ..
  filed a b hb := by
    unfold Context.withTrend at hb
    rw [c.contents_wrote_of_ne (by decide)] at hb
    exact h.filed a b hb

/-- The trend is stored, and accounts can be read and numbered. -/
structure Asks (c : Context) (n : UInt64) (trend : String) : Prop where
  accounts : c.ReadsAccounts
  counter : c.counter = .ok n
  opens : c.Opens .main
  stored : (c.contents .main).get? Trend.key = some (Bytes.ofString trend)

theorem asks_withTrend (h : c.ReadsAccounts) (hn : c.counter = .ok n) (ho : c.Opens .main)
    (trend : String) : (c.withTrend trend).Asks n trend where
  accounts := h.withTrend trend
  counter := (c.counter_withTrend trend).trans hn
  opens := ho.wrote ..
  stored := c.get?_contents_wrote_self ..

end Context

namespace Trend

variable {c d : Context} {n : UInt64} {trend : String} {m : Quiz}

theorem run_set (h : c.Opens .main) (trend : String) :
    (set trend).run.run c = (.ok (), c.withTrend trend) := run_write_of_opens h _ _

/-- A section is accepted with any trend but the empty one. -/
theorem run_load (h : c.Opens .main) (trend : String) :
    (TrendState.load ⟨trend⟩).run.run c =
      if trend = "" then (.error (.rejected "cool" .emptyTrend), c)
      else (.ok (), c.withTrend trend) := by
  unfold TrendState.load
  split
  · rfl
  · rw [run_within, run_set h]
    rfl

theorem run_isTrend (h : c.Asks n trend) (guess : String) :
    (isTrend guess).run.run c = (.ok (decide (trend = guess)), c) := by
  unfold isTrend
  have hcurrent : current.run.run c = (.ok trend, c) := by
    unfold current
    rw [run_bind_ok (run_read_of_opens h.opens key), h.stored, Option.getD_some,
      Bytes.toString?_ofString]
    rfl
  rw [run_bind_ok hcurrent]
  rfl

theorem pay_of_validDenom {denom : String} (h : validDenom denom = true) (a : Address) :
    pay a denom = (do let _ ← Bank.add a (.single denom reward)) := by
  unfold pay
  rw [Coins.ofList_singleton, h]
  rfl

theorem run_pay (h : c.ReadsAccounts) (hn : c.counter = .ok n) (a : Address) (denom : String) :
    (validDenom denom = true ∧ ∃ total, (c.balance a).add? (.single denom reward) = some total ∧
      (pay a denom).run.run c =
        (.ok (), (c.counted a n).withAccount ((c.accountFor a n).withCoins total))) ∨
    (validDenom denom = true ∧ ¬ c.HasRoom a (.single denom reward) ∧
      (pay a denom).run.run c = (.error (.invalidCoins (.balanceOverflow a)), c)) ∨
    (validDenom denom = false ∧
      (pay a denom).run.run c =
        (.error (.invalidCoins (.notCoins (.invalidDenom denom))), c)) := by
  cases hv : validDenom denom with
  | false =>
    refine .inr (.inr ⟨rfl, ?_⟩)
    unfold pay
    rw [Coins.ofList_singleton, hv]
    rfl
  | true =>
    rw [pay_of_validDenom hv]
    rcases Bank.run_add h hn a (.single denom reward) with ⟨total, ht, hrun⟩ | ⟨hnr, hrun⟩
    · refine .inl ⟨rfl, total, ht, ?_⟩
      rw [run_bind_ok hrun]
      rfl
    · refine .inr (.inl ⟨rfl, hnr, ?_⟩)
      rw [run_bind_eq_error _ hrun]

/-- A right answer is settled by the mode. -/
theorem run_answer (h : c.Asks n m.answer) :
    (answer m).run.run c =
      if c.mode = .check then (.ok (), c) else (pay m.sender m.answer).run.run c := by
  unfold answer
  have hmode : mode.run.run c = (.ok c.mode, c) := rfl
  rw [run_bind_ok (run_isTrend h m.answer), if_pos (decide_eq_true rfl), run_bind_ok hmode]
  split <;> rfl

theorem run_answer_of_ne (h : c.Asks n trend) (hne : trend ≠ m.answer) :
    (answer m).run.run c = (.error (.invalidMessage .wrongAnswer), c) := by
  unfold answer
  rw [run_bind_ok (run_isTrend h m.answer), if_neg (by simpa using hne)]
  rfl

/-- The sender has got the reward in coins of the answer, maybe on a new account with the number
`n`, and nothing else has changed. -/
structure Rewarded (c : Context) (n : UInt64) (m : Quiz) (d : Context) : Prop where
  account : d.account? m.sender = some ((c.accountFor m.sender n).withCoins (d.balance m.sender))
  amounts : ∀ e, ((d.balance m.sender).amountOf e).toNat =
    ((c.balance m.sender).amountOf e).toNat + if e = m.answer then 69 else 0
  counter : c.CountsOn n m.sender d
  changes : c.ChangesOnly (c.placesOf m.sender) d

theorem rewarded_withAccount (h : c.ReadsAccounts) (hn : c.counter = .ok n)
    (hlt : n.toNat + 1 < UInt64.size) (hv : validDenom m.answer = true) {total : Coins}
    (ht : (c.balance m.sender).add? (.single m.answer reward) = some total) :
    Rewarded c n m ((c.counted m.sender n).withAccount ((c.accountFor m.sender n).withCoins total)) := by
  have hr := Bank.received_withAccount h ht (countsOn_counted hn hlt m.sender)
  have haccount := hr.account (Coins.valid_single hv reward)
  have hbalance := (balance_of_account? haccount).trans (Account.coins_withCoins _ _)
  constructor
  case account => rw [hbalance, haccount]
  case amounts =>
    intro e
    rw [hbalance, hr.amounts, Coins.amountOf_single]
    split <;> rfl
  case counter => exact hr.counter
  case changes =>
    refine (c.changesOnly_counted m.sender n).wrote ?_ _
    rw [Account.address_withCoins, h.address_accountFor]
    exact c.placeOf_mem_placesOf m.sender

/-- A right answer is paid as it should, or nothing happens. -/
structure Settles (c : Context) (n : UInt64) (m : Quiz) : Prop where
  accepted_iff : (∃ d, (handle (.quiz m)).run.run c = (.ok (), d)) ↔
    validDenom m.answer = true ∧
      ((c.balance m.sender).amountOf m.answer).toNat + 69 < UInt64.size
  paid : ∀ d, (handle (.quiz m)).run.run c = (.ok (), d) → Rewarded c n m d
  refused : ∀ e d, (handle (.quiz m)).run.run c = (.error e, d) → d = c ∧
    e = .invalidCoins (if validDenom m.answer then .balanceOverflow m.sender
      else .notCoins (.invalidDenom m.answer))

theorem settles (h : c.Asks n m.answer) (hlt : n.toNat + 1 < UInt64.size) (hmode : c.mode ≠ .check) :
    Settles c n m := by
  have hanswer : (handle (.quiz m)).run.run c = (pay m.sender m.answer).run.run c :=
    (run_answer h).trans (if_neg hmode)
  have hroom : c.HasRoom m.sender (.single m.answer reward) ↔
      ((c.balance m.sender).amountOf m.answer).toNat + 69 < UInt64.size := hasRoom_single
  rcases run_pay h.accounts h.counter m.sender m.answer with
    ⟨hv, total, ht, hrun⟩ | ⟨hv, hnr, hrun⟩ | ⟨hv, hrun⟩
  · constructor <;> rw [hanswer, hrun]
    case accepted_iff =>
      exact iff_of_true ⟨_, rfl⟩ ⟨hv, hroom.mp (hasRoom_iff.mpr ⟨total, ht⟩)⟩
    case paid =>
      rintro _ ⟨⟩
      exact rewarded_withAccount h.accounts h.counter hlt hv ht
    case refused => rintro e d ⟨⟩
  · constructor <;> rw [hanswer, hrun]
    case accepted_iff => exact iff_of_false (by rintro ⟨d, ⟨⟩⟩) fun hc => hnr (hroom.mpr hc.2)
    case paid => rintro d ⟨⟩
    case refused =>
      rintro e d ⟨⟩
      exact ⟨rfl, by rw [if_pos hv]⟩
  · have hinvalid : ¬ validDenom m.answer = true := Bool.eq_false_iff.mp hv
    constructor <;> rw [hanswer, hrun]
    case accepted_iff => exact iff_of_false (by rintro ⟨d, ⟨⟩⟩) fun hc => hinvalid hc.1
    case paid => rintro d ⟨⟩
    case refused =>
      rintro e d ⟨⟩
      exact ⟨rfl, by rw [if_neg hinvalid]⟩

/-- A text becomes the trend by a section, or by a message that passes its check. -/
def Introduces (trend : String) (c d : Context) : Prop :=
  (TrendState.load ⟨trend⟩).run.run c = (.ok (), d) ∨
    ∃ a, SetTrend.check ⟨a, trend⟩ = .ok () ∧ (handle (.setTrend ⟨a, trend⟩)).run.run c = (.ok (), d)

theorem check_setTrend_eq_ok {a : Address} :
    SetTrend.check ⟨a, trend⟩ = .ok () ↔ ¬ a.isEmpty = true ∧ trend ≠ "" := by
  unfold SetTrend.check
  rw [guard_eq_ok, guard_eq_ok, and_iff_left rfl]

theorem check_quiz_eq_ok {a : Address} :
    Quiz.check ⟨a, trend⟩ = .ok () ↔ ¬ a.isEmpty = true ∧ trend ≠ "" := by
  unfold Quiz.check
  rw [guard_eq_ok, guard_eq_ok, and_iff_left rfl]

theorem introduces_iff (h : c.Opens .main) :
    Introduces trend c d ↔ trend ≠ "" ∧ d = c.withTrend trend := by
  unfold Introduces
  rw [run_load h]
  constructor
  · rintro (hl | ⟨a, ha, hs⟩)
    · split at hl <;> cases hl
      exact ⟨‹_›, rfl⟩
    · cases (run_set h trend).symm.trans hs
      exact ⟨(check_setTrend_eq_ok.mp ha).2, rfl⟩
  · rintro ⟨hne, rfl⟩
    exact .inl (if_neg hne)

/-- Every text but the empty one can become the trend, and be given as an answer. From then on a
wrong answer is refused, a right one passes where it is only checked, and otherwise it is settled:
whoever gives it gets 69 coins that are named after it, unless nothing can be, or there is no room
for them. -/
theorem answers_settle (h : c.ReadsAccounts) (hn : c.counter = .ok n) (ho : c.Opens .main)
    (trend : String) :
    ((∃ d, Introduces trend c d) ↔ trend ≠ "") ∧
    (∀ a, Quiz.check ⟨a, trend⟩ = .ok () ↔ SetTrend.check ⟨a, trend⟩ = .ok ()) ∧
    (∀ d, Introduces trend c d → d.Asks n trend) ∧
    ∀ d k (m : Quiz), d.Asks k trend → k.toNat + 1 < UInt64.size →
      (m.answer = trend → d.mode ≠ .check → Settles d k m) ∧
      (m.answer = trend → d.mode = .check → (handle (.quiz m)).run.run d = (.ok (), d)) ∧
      (m.answer ≠ trend →
        (handle (.quiz m)).run.run d = (.error (.invalidMessage .wrongAnswer), d)) := by
  refine ⟨?_, fun a => check_quiz_eq_ok.trans check_setTrend_eq_ok.symm, fun d hd => ?_,
    fun d k m hd hlt => ⟨?_, ?_, fun hne => run_answer_of_ne hd (Ne.symm hne)⟩⟩
  · simp only [introduces_iff ho, exists_and_left, exists_eq, and_true]
  · obtain ⟨-, rfl⟩ := (introduces_iff ho).mp hd
    exact asks_withTrend h hn ho trend
  · rintro rfl hmode
    exact settles hd hlt hmode
  · rintro rfl hmode
    exact (run_answer hd).trans (if_pos hmode)

open Context.Sample

/-- The trend may be a text that cannot name coins, for which nobody is paid. -/
theorem answers_settle_hyphen :
    funded.ReadsAccounts ∧ funded.counter = .ok 0 ∧ funded.Opens .main ∧
      (∃ d, Introduces "ice-cold" funded d ∧ Quiz.check ⟨holder, "ice-cold"⟩ = .ok () ∧
        (handle (.quiz ⟨holder, "ice-cold"⟩)).run.run d =
          (.error (.invalidCoins (.notCoins (.invalidDenom "ice-cold"))), d)) ∧
      ∃ d e, Introduces "icecold" funded d ∧
        (handle (.quiz ⟨holder, "icecold"⟩)).run.run d = (.ok (), e) ∧
        ((e.balance holder).amountOf "icecold").toNat = 69 := by
  have hcounter : funded.counter = .ok 0 := blank.counter_withAccount purse
  have hopens : funded.Opens .main := ⟨_, rfl⟩
  have hlt : (0 : UInt64).toNat + 1 < UInt64.size := by decide
  have hmode : (funded.mode : Mode) ≠ .check := nofun
  refine ⟨readsAccounts_funded, hcounter, hopens, ?_, ?_⟩
  · obtain ⟨-, hchecks, hasks, hanswers⟩ :=
      answers_settle readsAccounts_funded hcounter hopens "ice-cold"
    have hd : Introduces "ice-cold" funded (funded.withTrend "ice-cold") :=
      (introduces_iff hopens).mpr ⟨by decide, rfl⟩
    have hs := (hanswers _ 0 ⟨holder, "ice-cold"⟩ (hasks _ hd) hlt).1 rfl hmode
    refine ⟨_, hd, (hchecks holder).mpr (check_setTrend_eq_ok.mpr (by decide +kernel)), ?_⟩
    rcases hrun : (handle (.quiz ⟨holder, "ice-cold"⟩)).run.run (funded.withTrend "ice-cold") with
      ⟨_ | _, e⟩
    · obtain ⟨rfl, rfl⟩ := hs.refused _ e hrun
      rfl
    · exact absurd (hs.accepted_iff.mp ⟨e, hrun⟩).1 (by decide)
  · obtain ⟨-, -, hasks, hanswers⟩ :=
      answers_settle readsAccounts_funded hcounter hopens "icecold"
    have hd : Introduces "icecold" funded (funded.withTrend "icecold") :=
      (introduces_iff hopens).mpr ⟨by decide, rfl⟩
    have hs := (hanswers _ 0 ⟨holder, "icecold"⟩ (hasks _ hd) hlt).1 rfl hmode
    have hbefore : (funded.withTrend "icecold").balance holder = purse.coins :=
      balance_of_account? ((funded.account?_withTrend "icecold" holder).trans account?_holder)
    obtain ⟨e, he⟩ := hs.accepted_iff.mpr ⟨by decide, by rw [hbefore]; decide⟩
    refine ⟨_, e, hd, he, ?_⟩
    rw [(hs.paid e he).amounts, hbefore]
    decide

end Trend
end Appchain
