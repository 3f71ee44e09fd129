import Appchain.Proofs.Stages
import Mathlib.Data.List.Iterate
import Mathlib.Data.List.Nodup

/-!
# Mined work

Work is accepted if it is the next one, which is then stored and paid for; what
is rejected changes nothing. Counts and difficulties stay at the greatest word
once they have reached it, so the counts that are accepted are distinct only as
far as they have not.
-/

namespace Appchain

open Outcome MultiStore

theorem Word.toNat_succ_eq_min (a : UInt64) : (succ a).toNat = min (a.toNat + 1) maximum.toNat := by
  by_cases h : a = maximum
  · rw [succ, if_pos h, h]
    omega
  · rw [toNat_succ h]
    have hlt := toNat_add_one_lt_size h
    have hm : maximum.toNat = UInt64.size - 1 := rfl
    omega

theorem Word.toNat_iterate_succ (a : UInt64) (n : Nat) :
    (succ^[n] a).toNat = min (a.toNat + n) maximum.toNat := by
  have hm : maximum.toNat = UInt64.size - 1 := rfl
  induction n generalizing a with
  | zero =>
    have hlt := a.toNat_lt_size
    change a.toNat = _
    omega
  | succ n ih =>
    rw [Function.iterate_succ_apply, ih, toNat_succ_eq_min]
    omega

/-- Numbers that count up to a greatest one are distinct unless they get there early. -/
theorem nodup_map_min_iff {k m n : Nat} :
    ((List.range n).map fun i => min (k + i + 1) m).Nodup ↔ n ≤ 1 ∨ k + n ≤ m := by
  rw [List.nodup_map_iff_inj_on List.nodup_range]
  simp only [List.mem_range]
  constructor
  · intro h
    by_contra hn
    -- The last two numbers are both the greatest one.
    have := h (n - 2) (by omega) (n - 1) (by omega) (by omega)
    omega
  · intro h i hi j hj he
    omega

/-- The work that a message presents. -/
def Mine.claim (m : Mine) : Mining.State := ⟨m.difficulty, m.count⟩

/-! What fails only reads. -/

section Failures

variable {ε α β : Type} {s : MultiStore} {mode : Mode} {l : Ledger}

theorem Reads.bind_error {x : ExecWith ε α} (f : α → ExecWith ε β) {e : ε}
    (hx : Reads s mode x l (.error e)) : Reads s mode (x >>= f) l (.error e) :=
  hx.bind (g := fun _ => .error e) nofun

theorem Coins.empty_add? (c : Coins) : Coins.empty.add? c = some c := by
  rw [add?_eq_some_iff]
  intro d
  rw [amountOf_empty]
  exact Nat.zero_add _

/-- Nobody without an account can have too much to be paid, so no account is created in vain. -/
theorem Bank.reads_afterReceiving_of_error {a : Address} {amount : Coins} {e : TxError}
    (h : l.receiving a amount = .error e) :
    Reads s mode (afterReceiving a amount) l (.error e) := by
  unfold Ledger.receiving Ledger.getOrCreate at h
  cases hx : l.accounts.get? a with
  | none =>
    have ht : (l.create a).1.coins.add? amount = some amount := Coins.empty_add? amount
    simp only [hx, ht] at h
    cases h
  | some x =>
    rw [hx] at h
    have hget : Reads s mode (Accounts.getOrCreate a) l (.ok x) := by
      unfold Accounts.getOrCreate
      apply (Accounts.reads_get? a).bind (g := fun _ => .ok x)
      intro y hy
      cases hy
      rw [hx]
      exact .pure x
    unfold afterReceiving
    apply hget.bind (g := fun _ => .error e)
    intro y hy
    cases hy
    cases ht : x.coins.add? amount with
    | none =>
      simp only [ht] at h
      cases h
      exact .throw _
    | some total =>
      simp only [ht] at h
      cases h

theorem Bank.reads_add_of_error {a : Address} {amount : Coins} {e : TxError}
    (h : l.credit a amount = .error e) : Reads s mode (add a amount) l (.error e) :=
  (reads_afterReceiving_of_error (map_eq_error.mp h)).bind_error _

/-- Work that is rejected leaves everything as it was. -/
theorem Mining.reads_mine_of_error {m : Mine} {e : TxError} (h : l.mine m = .error e) :
    Reads s mode (handle (.mine m)) l (.error e) := by
  have hcheck : Reads s mode (checkNext ⟨m.difficulty, m.count⟩) l _ := reads_checkNext _
  rcases bind_eq_error.mp h with hw | ⟨w, hw, h⟩
  · rw [hw] at hcheck
    exact hcheck.bind_error _
  rw [hw] at hcheck
  apply hcheck.bind (g := fun _ => .error e)
  intro n _
  have hr : l.reward m.sender reward = .error e := by
    rcases bind_eq_error.mp h with hr | ⟨k, -, hk⟩
    · exact hr
    · cases hk
  rcases bind_eq_error.mp hr with hp | ⟨paid, hp, hc⟩
  · exact Reads.bind_error _ (hp ▸ Reads.lift _)
  · refine (Reads.lift _).bind (g := fun _ => .error e) fun coins hcoins => ?_
    obtain rfl : paid = coins := Except.ok.inj (hp.symm.trans hcoins)
    exact (Bank.reads_add_of_error hc).bind_error _

end Failures

namespace Mining

/-- The only work that is accepted after some other. -/
def State.next (w : State) : State := ⟨Word.succ w.difficulty, Word.succ w.count⟩

/-- Difficulty and count go on by themselves. -/
theorem State.iterate_next {f : State → UInt64} (hf : ∀ v, f v.next = Word.succ (f v)) (n : Nat)
    (w : State) : f (next^[n] w) = Word.succ^[n] (f w) := by
  induction n generalizing w with
  | zero => rfl
  | succ n ih => rw [Function.iterate_succ_apply, ih, hf, Function.iterate_succ_apply]

def submit (c : Context) (m : Mine) : Except TxError Unit × Context := (handle (.mine m)).run.run c

/-- The messages that are accepted when some are submitted one after another, and where that leads. -/
def submitAll : Context → List Mine → List Mine × Context
  | c, [] => ([], c)
  | c, m :: ms =>
    match submit c m with
    | (.ok (), d) => (m :: (submitAll d ms).1, (submitAll d ms).2)
    | (.error _, d) => submitAll d ms

/-- A message is accepted if it has the next work. Then that is stored, and the sender is paid. If it
is rejected, nothing has changed. -/
def Advances (c : Context) (m : Mine) : Prop :=
  match submit c m with
  | (.ok (), d) => ∃ w, c.read State.stored = .ok w ∧ m.claim = w.next ∧
      d.read State.stored = .ok w.next ∧ Context.Gains m.sender (.single "pow" 1) c d
  | (.error _, d) => d = c

/-- The context shows proper accounts and some work. -/
def Shows (s : MultiStore) (mode : Mode) (w : State) (c : Context) : Prop :=
  ∃ l : Ledger, c.Holds s mode l ∧ Ledger.AccountsFit l.accounts ∧
    l.difficulty = some w.difficulty ∧ l.count = some w.count

namespace Shows

variable {s : MultiStore} {mode : Mode} {w : State} {c : Context}

theorem read (h : Shows s mode w c) : c.read State.stored = .ok w := by
  obtain ⟨l, hc, -, hd, hn⟩ := h
  rw [hc.read_eq State.reads_stored, Ledger.work, hd, hn]
  rfl

theorem submit (h : Shows s mode w c) (m : Mine) :
    (∃ d, submit c m = (.ok (), d) ∧ m.claim = w.next ∧ Shows s mode w.next d ∧
        Context.Gains m.sender (.single "pow" 1) c d) ∨
      ∃ e, submit c m = (.error e, c) := by
  obtain ⟨l, hc, hf, hd, hn⟩ := h
  cases hm : l.mine m with
  | error e => exact .inr ⟨e, reads_mine_of_error hm c hc⟩
  | ok n =>
    have hr := leaves_mine m c hc
    rw [hm] at hr
    obtain ⟨u, d, hrun, hdn⟩ := hr
    obtain ⟨v, k, hv, hk, rfl⟩ := Ledger.mine_eq_ok.mp hm
    obtain ⟨paid, hpaid, hcredit⟩ := Ledger.reward_eq_ok.mp hk
    obtain rfl := Coins.eq_single_of_ofList hpaid
    have hfit := hf.credit hcredit
    obtain ⟨difficulty, count, hd', hn', rfl, hclaim⟩ := Ledger.nextWork_eq_ok.mp hv
    rw [hd] at hd'
    cases hd'
    rw [hn] at hn'
    cases hn'
    exact .inl ⟨d, hrun, hclaim, ⟨_, hdn, hfit, rfl, rfl⟩,
      hc.gains hdn fun denom q => Ledger.balance_credit hf hcredit denom q⟩

theorem advances (h : Shows s mode w c) (m : Mine) : Advances c m := by
  unfold Advances
  rcases h.submit m with ⟨d, hd, hm, hs, hg⟩ | ⟨e, he⟩
  · rw [hd]
    exact ⟨w, h.read, hm, hs.read, hg⟩
  · rw [he]

theorem submitAll (h : Shows s mode w c) (ms : List Mine) :
    Shows s mode (State.next^[(submitAll c ms).1.length] w) (submitAll c ms).2 ∧
      (submitAll c ms).1.map Mine.claim =
        List.iterate State.next w.next (submitAll c ms).1.length := by
  induction ms generalizing c w with
  | nil => exact ⟨h, rfl⟩
  | cons m ms ih =>
    unfold Mining.submitAll
    rcases h.submit m with ⟨d, hd, hm, hs, -⟩ | ⟨e, he⟩
    · rw [hd]
      obtain ⟨hafter, hclaims⟩ := ih hs
      refine ⟨hafter, ?_⟩
      rw [List.map_cons, hm, hclaims]
      rfl
    · rw [he]
      exact ih h

end Shows

/-- Work starts where a section that is accepted says. -/
theorem shows_of_load {s : MultiStore} {mode : Mode} {l : Ledger} {w : State} {c d : Context}
    (hc : c.Holds s mode l) (hf : Ledger.AccountsFit l.accounts)
    (hw : w.load.run.run c = (.ok (), d)) : Shows s mode w d := by
  have hr := State.leaves_load w c hc
  cases hl : l.loadWork w with
  | error e =>
    rw [hl, hw] at hr
    cases hr
  | ok n =>
    rw [hl, hw] at hr
    obtain ⟨_, d', hd, hn⟩ := hr
    cases hd
    obtain ⟨-, rfl⟩ := Ledger.loadWork_eq_ok.mp hl
    exact ⟨_, hn, hf, rfl, rfl⟩

/-- What has been accepted after a section has been loaded: difficulties and counts go up by one
each, as far as words go. Counts are distinct exactly if the greatest word does not come twice, and
messages are if one of the two has not got beyond it. -/
structure Mined (w : State) (accepted : List Mine) (d : Context) : Prop where
  stored : ∃ v, d.read State.stored = .ok v ∧
    v.difficulty.toNat = min (w.difficulty.toNat + accepted.length) Word.maximum.toNat ∧
    v.count.toNat = min (w.count.toNat + accepted.length) Word.maximum.toNat
  difficulties : (accepted.map fun m => m.difficulty.toNat) =
    (List.range accepted.length).map fun i => min (w.difficulty.toNat + i + 1) Word.maximum.toNat
  counts : (accepted.map fun m => m.count.toNat) =
    (List.range accepted.length).map fun i => min (w.count.toNat + i + 1) Word.maximum.toNat
  nodup_counts : (accepted.map Mine.count).Nodup ↔
    accepted.length ≤ 1 ∨ w.count.toNat + accepted.length ≤ Word.maximum.toNat
  nodup : w.count.toNat + accepted.length ≤ Word.maximum.toNat ∨
    w.difficulty.toNat + accepted.length ≤ Word.maximum.toNat → accepted.Nodup

/-- Successive words of the work that is presented are those that `succ` leads to. -/
theorem map_toNat_of_claims {accepted : List Mine} {w : State} {f : State → UInt64}
    (h : accepted.map Mine.claim = List.iterate State.next w.next accepted.length)
    (hf : ∀ v, f v.next = Word.succ (f v)) :
    (accepted.map fun m => (f m.claim).toNat) =
      (List.range accepted.length).map fun i => min ((f w).toNat + i + 1) Word.maximum.toNat := by
  have hm : (accepted.map fun m => (f m.claim).toNat) =
      (accepted.map Mine.claim).map fun v => (f v).toNat := by
    rw [List.map_map]
    rfl
  rw [hm, h, ← List.range_map_iterate, List.map_map]
  refine List.map_congr_left fun i _ => ?_
  change (f (State.next^[i] w.next)).toNat = _
  rw [← Function.iterate_succ_apply, State.iterate_next hf, Word.toNat_iterate_succ]
  rfl

theorem nodup_of_map_toNat {accepted : List Mine} {f : Mine → UInt64} {k : Nat}
    (h : (accepted.map fun m => (f m).toNat) =
      (List.range accepted.length).map fun i => min (k + i + 1) Word.maximum.toNat) :
    (accepted.map f).Nodup ↔ accepted.length ≤ 1 ∨ k + accepted.length ≤ Word.maximum.toNat := by
  have hm : ((accepted.map f).map UInt64.toNat) = accepted.map fun m => (f m).toNat := by
    rw [List.map_map]
    rfl
  rw [← nodup_map_min_iff, ← h, ← hm, List.nodup_map_iff fun _ _ => UInt64.toNat.inj]

/-- From any section that is accepted on, messages advance difficulty and count together by one step
each, and rejected ones change nothing. As soon as the count has got to the greatest word, messages
with the same count are accepted again. -/
theorem mined {s : MultiStore} {mode : Mode} {l : Ledger} {w : State} {c d : Context}
    (hc : c.Holds s mode l) (hf : Ledger.AccountsFit l.accounts)
    (hw : w.load.run.run c = (.ok (), d)) (ms : List Mine) :
    Mined w (submitAll d ms).1 (submitAll d ms).2 ∧ ∀ m, Advances (submitAll d ms).2 m := by
  obtain ⟨hs, hclaims⟩ := (shows_of_load hc hf hw).submitAll ms
  have hdifficulties := map_toNat_of_claims (f := State.difficulty) hclaims fun _ => rfl
  have hcounts := map_toNat_of_claims (f := State.count) hclaims fun _ => rfl
  refine ⟨⟨⟨_, hs.read, ?_, ?_⟩, hdifficulties, hcounts, nodup_of_map_toNat hcounts, ?_⟩, hs.advances⟩
  · rw [State.iterate_next (f := State.difficulty) fun _ => rfl, Word.toNat_iterate_succ]
  · rw [State.iterate_next (f := State.count) fun _ => rfl, Word.toNat_iterate_succ]
  · rintro (h | h)
    · exact .of_map _ ((nodup_of_map_toNat hcounts).mpr (.inr h))
    · exact .of_map _ ((nodup_of_map_toNat hdifficulties).mpr (.inr h))

namespace Sample

/-- One message before difficulty and count get to the greatest word. -/
def late : State := ⟨Word.maximum - 1, Word.maximum - 1⟩

def last : Mine := ⟨App.Sample.holder, Word.maximum, Word.maximum, 0, ""⟩

end Sample

/-- A message with the greatest difficulty and count is accepted twice. -/
theorem mined_twice :
    ∃ d v, Sample.late.load.run.run ((App.opened ∅ .initial).context .initChain) = (.ok (), d) ∧
      (submitAll d [Sample.last, Sample.last]).1 = [Sample.last, Sample.last] ∧
      (submitAll d [Sample.last, Sample.last]).2.read State.stored = .ok v ∧
      v.difficulty.toNat = Word.maximum.toNat ∧ v.count.toNat = Word.maximum.toNat := by
  have hc : ((App.opened ∅ .initial).context .initChain).Holds (openedOn ∅ .initial) .initChain
      Ledger.empty :=
    Context.holds_new (assembled_openedOn ∅ .initial) (App.contents_opened ▸ App.stored_empty) _ _
  have hok : (Sample.late.load.run.run ((App.opened ∅ .initial).context .initChain)).1.toOption =
      some () := by
    decide +kernel
  have htwice : (submitAll (Sample.late.load.run.run ((App.opened ∅ .initial).context .initChain)).2
      [Sample.last, Sample.last]).1 = [Sample.last, Sample.last] := by
    decide +kernel
  rcases hd : Sample.late.load.run.run ((App.opened ∅ .initial).context .initChain) with ⟨r, d⟩
  rw [hd] at hok htwice
  obtain rfl := toOption_eq_some.mp hok
  obtain ⟨hmined, -⟩ := mined hc nofun hd [Sample.last, Sample.last]
  obtain ⟨v, hv, hdifficulty, hcount⟩ := hmined.stored
  rw [htwice] at hdifficulty hcount
  exact ⟨d, v, rfl, htwice, hv, hdifficulty, hcount⟩

end Mining
end Appchain
