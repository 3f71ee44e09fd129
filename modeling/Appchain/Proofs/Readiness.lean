import Appchain.Proofs.Calls
import Appchain.Proofs.Exports
import Appchain.Proofs.Replay

/-!
# Ready chains

A chain becomes ready when a document is loaded, or when a database that has a
commit is opened. But a commit may be made before there is any document, and then
the database opens as a ready chain with nothing in its stores. Unless that has
happened, a ready chain runs on a document that it has been given.
-/

namespace Appchain

open MultiStore Outcome

namespace Ledger

/-- Without accounts nobody can sign. -/
theorem screen_empty_ne_ok {t : Transaction} (hc : t.check = .ok ()) (n : Ledger) :
    empty.screen t ≠ .ok n := by
  intro h
  obtain ⟨hlim, k, hk, -⟩ := screen_eq_ok.mp h
  obtain ⟨a, ha⟩ := Transaction.exists_signer_of_check hc
  have hlen := length_signatures_of_checkLimits hlim
  obtain ⟨e, es, he⟩ : ∃ e es, t.signers.zip t.signatures = e :: es := by
    apply List.exists_cons_of_ne_nil
    rw [← List.length_pos_iff, List.length_zip, hlen, Nat.min_self]
    exact List.length_pos_of_mem ha
  rw [he, List.foldlM_cons] at hk
  obtain ⟨m, hm, -⟩ := bind_eq_ok.mp hk
  obtain ⟨x, y, hx, -⟩ := authorize_eq_ok.mp hm
  cases hx

theorem ordinary_execute_empty (mode : Mode) (t : Transaction) :
    Ordinary (empty.execute mode t) := by
  apply t.ordinary_check.bind
  intro _ hc
  apply (ordinary_screen empty t).bind
  intro n hn
  exact absurd hn (screen_empty_ne_ok hc n)

theorem execute_empty_ne_ok (mode : Mode) (t : Transaction) (n : Ledger) :
    empty.execute mode t ≠ .ok n := by
  intro h
  obtain ⟨hc, k, hk, -⟩ := execute_eq_ok.mp h
  exact screen_empty_ne_ok hc k hk

/-- What a ready chain may hold: a document has been loaded, or nothing has. -/
def Grounded (l : Ledger) : Prop := l.WellFormed ∨ l = .empty

namespace Grounded

variable {l n : Ledger}

/-- A transaction is rejected for what it says, with or without a document. -/
theorem ordinary_execute (h : l.Grounded) (mode : Mode) (t : Transaction) :
    Ordinary (l.execute mode t) := by
  rcases h with h | rfl
  · exact h.ordinary_execute mode t
  · exact ordinary_execute_empty mode t

theorem wellFormed {mode : Mode} {t : Transaction} (h : l.Grounded)
    (he : l.execute mode t = .ok n) : l.WellFormed := by
  rcases h with h | rfl
  · exact h
  · exact absurd he (execute_empty_ne_ok mode t n)

end Grounded

theorem genesis_empty :
    empty.genesis =
      .error (.failed Mining.State.moduleName (.internal (.missing Mining.difficultyName))) := rfl

end Ledger

namespace App

variable {a b : App} {cs : List Call} {l k : Ledger}

/-- The application after some calls, starting over an empty database. -/
inductive Reached : List Call → App → Prop
  | fresh {a : App} : App.fresh = .ok a → Reached [] a
  | call {cs : List Call} {a : App} (c : Call) : Reached cs a → Reached (cs ++ [c]) (a.call c).2

/-- The ledger has come from a document that was given with one of the calls. -/
inductive Grown (cs : List Call) : Ledger → Prop
  | start {chain : String} {document : Bytes} {g : Genesis} {l : Ledger} :
      .initChain chain document ∈ cs → Genesis.decode document = .ok g →
      Ledger.ofGenesis g = .ok l → Grown cs l
  | step {l n : Ledger} {t : Transaction} :
      Grown cs l → l.execute .deliver t = .ok n → Grown cs n

/-- A commit has been made before there was a document. -/
def CommittedEarly (cs : List Call) : Prop :=
  ∃ before b, Reached before b ∧ b.phase = .uninitialized ∧ before ++ [.commit] <+: cs

/-- What a ready chain may run on. -/
def Founded (cs : List Call) (l : Ledger) : Prop := Grown cs l ∨ l = .empty ∧ CommittedEarly cs

theorem Grown.mono (h : Grown cs l) (c : Call) : Grown (cs ++ [c]) l := by
  induction h with
  | start hm hd hl => exact .start (List.mem_append_left _ hm) hd hl
  | step _ he ih => exact .step ih he

theorem CommittedEarly.mono (h : CommittedEarly cs) (c : Call) : CommittedEarly (cs ++ [c]) := by
  obtain ⟨before, b, hr, hb, hp⟩ := h
  exact ⟨before, b, hr, hb, hp.trans (List.prefix_append ..)⟩

theorem Founded.mono (h : Founded cs l) (c : Call) : Founded (cs ++ [c]) l :=
  h.imp (·.mono c) fun h => ⟨h.1, h.2.mono c⟩

theorem Grown.wellFormed (h : Grown cs l) : l.WellFormed := by
  induction h with
  | start _ _ hl => exact .of_genesis hl
  | step _ he ih => exact ih.execute he

theorem Founded.grounded (h : Founded cs l) : l.Grounded := h.imp (·.wellFormed) And.left

theorem Founded.ordinary_execute (h : Founded cs l) (mode : Mode) (t : Transaction) :
    Ordinary (l.execute mode t) := h.grounded.ordinary_execute mode t

theorem Founded.execute {n : Ledger} {t : Transaction} (h : Founded cs l)
    (he : l.execute .deliver t = .ok n) : Founded cs n := by
  rcases h with h | ⟨rfl, -⟩
  · exact .inl (h.step he)
  · exact absurd he (Ledger.execute_empty_ne_ok .deliver t n)

/-- What the stores hold after some calls. -/
structure Running (cs : List Call) (a : App) (l : Ledger) : Prop where
  screen : a.screen = Admission.screen
  assembled : a.store.Assembled
  stored : l.Stored a.store.contents
  /-- No document is being loaded between two calls. -/
  settled : a.phase = .uninitialized ∨ a.phase = .ready
  blank : a.phase = .uninitialized → l = .empty
  founded : a.phase = .ready → Founded cs l

/-- What the database holds after some calls. -/
structure Recorded (cs : List Call) (s : MultiStore) (l : Ledger) : Prop where
  record : readCommit (s.database.tree metadataName) = .ok s.lastCommit
  stored : l.Stored (openedOn s.database s.lastCommit).contents
  blank : s.lastCommit.version = 0 → l = .empty
  founded : s.lastCommit.version ≠ 0 → Founded cs l
  /-- The version is an unchecked counter. -/
  counted : s.lastCommit.version.toNat ≤ cs.length

theorem phase_opened (d : Database) (last : CommitInfo) :
    (opened d last).phase = if last.version = 0 then .uninitialized else .ready := by
  change (if 0 < last.version then Phase.ready else .uninitialized) = _
  by_cases h : last.version = 0
  · rw [if_pos h, if_neg fun hlt => UInt64.pos_iff_ne_zero.mp hlt h]
  · rw [if_neg h, if_pos (UInt64.pos_iff_ne_zero.mpr h)]

namespace Running

theorem holds (h : Running cs a l) (hp : a.phase = .ready) : a.Holds l :=
  ⟨hp, h.screen, h.assembled, h.stored⟩

theorem isBlank (h : Running cs a l) (hp : a.phase = .uninitialized) : a.Blank :=
  ⟨hp, h.screen, h.assembled, h.blank hp ▸ h.stored⟩

theorem of_holds (h : a.Holds l) (hf : Founded cs l) : Running cs a l where
  screen := h.screen
  assembled := h.assembled
  stored := h.stored
  settled := .inr h.phase
  blank hp := by
    rw [h.phase] at hp
    cases hp
  founded _ := hf

theorem mono (h : Running cs a l) (c : Call) : Running (cs ++ [c]) a l :=
  { h with founded := fun hp => (h.founded hp).mono c }

/-- A document is loaded at most once, into stores that hold nothing. -/
theorem initChain (h : Running cs a l) (chain : String) (document : Bytes) :
    ∃ n, Running (cs ++ [.initChain chain document]) (a.call (.initChain chain document)).2 n := by
  cases hi : a.initChain chain document with
  | error e =>
    rw [call_initChain_of_error hi]
    exact ⟨l, h.mono _⟩
  | ok r =>
    rw [call_initChain hi]
    by_cases hp : a.phase = .uninitialized
    · obtain ⟨g, n, hd, hl, -, hn⟩ := (h.isBlank hp).exists_of_initChain hi
      have hmem : Call.initChain chain document ∈ cs ++ [.initChain chain document] :=
        List.mem_append_right _ (List.mem_singleton.mpr rfl)
      exact ⟨n, .of_holds hn (.inl (.start hmem hd hl))⟩
    · rw [initChain_of_ne hp] at hi
      cases hi

/-- What is delivered is carried out or changes nothing. -/
theorem deliver (h : Running cs a l) (text : Bytes) :
    ∃ n, Running (cs ++ [.deliver text]) (a.call (.deliver text)).2 n := by
  change ∃ n, Running _ (a.settle .response (a.deliver text)).2 n
  by_cases hp : a.phase = .ready
  · have hf := h.founded hp
    obtain ⟨r, b, n, hb, hn, he⟩ :=
      (h.holds hp).deliver_of_ordinary (hf.ordinary_execute .deliver) text
    rw [hb]
    have hfn : Founded cs n := foldlM_preserves (fun t _ k m hk he => hk.execute he) hf he
    exact ⟨n, (of_holds hn hfn).mono _⟩
  · rw [deliver_of_ne hp]
    exact ⟨l, h.mono _⟩

theorem committed (h : Running cs a l) (info : CommitInfo) :
    Running (cs ++ [.commit]) (a.committed info) l where
  screen := h.screen
  assembled := h.assembled.afterCommit info
  stored := h.stored.afterCommit info
  settled := h.settled
  blank := h.blank
  founded hp := (h.founded hp).mono _

end Running

namespace Recorded

variable {s t : MultiStore}

theorem mono (h : Recorded cs s l) (c : Call) : Recorded (cs ++ [c]) s l :=
  { h with
    founded := fun hv => (h.founded hv).mono c
    counted := Nat.le_trans h.counted (by simp) }

theorem of_sameCommit (h : Recorded cs s l) (hs : SameCommit s t) : Recorded cs t l where
  record := by
    rw [hs.database_eq, hs.lastCommit_eq]
    exact h.record
  stored := by
    rw [hs.database_eq, hs.lastCommit_eq]
    exact h.stored
  blank := hs.lastCommit_eq ▸ h.blank
  founded := hs.lastCommit_eq ▸ h.founded
  counted := hs.lastCommit_eq ▸ h.counted

/-- What is committed is what the stores hold. -/
theorem commit (h : Recorded cs a.store k) (hl : Running cs a l) (hr : Reached cs a)
    (hn : cs.length + 1 < UInt64.size) {info : CommitInfo}
    (hv : info.version = a.lastCommit.version + 1) :
    Recorded (cs ++ [.commit]) (a.committed info).store l := by
  -- The counter does not wrap around, hence a database with a commit never looks like a new one.
  have hcount : info.version.toNat = a.lastCommit.version.toNat + 1 := by
    rw [hv]
    exact Word.toNat_add_one (Nat.lt_of_le_of_lt (Nat.succ_le_succ h.counted) hn)
  constructor
  · exact readCommit_afterCommit a.store info
  · exact hl.stored.reopened info info
  · intro hz
    change info.version = 0 at hz
    rw [hz] at hcount
    cases hcount
  · intro _
    rcases hl.settled with hp | hp
    · exact .inr ⟨hl.blank hp, cs, a, hr, hp, List.prefix_refl _⟩
    · exact (hl.founded hp).mono _
  · change info.version.toNat ≤ _
    rw [hcount, List.length_append]
    exact Nat.succ_le_succ h.counted

/-- The database is opened again with what has been committed. -/
theorem reopened (h : Recorded cs a.store k) :
    Running cs (opened a.store.database a.lastCommit) k := by
  have hphase : (opened a.store.database a.lastCommit).phase =
      if a.store.lastCommit.version = 0 then .uninitialized else .ready := phase_opened ..
  by_cases hv : a.store.lastCommit.version = 0
  · rw [if_pos hv] at hphase
    refine ⟨rfl, assembled_openedOn _ _, h.stored, .inl hphase, fun _ => h.blank hv, fun hp => ?_⟩
    rw [hphase] at hp
    cases hp
  · rw [if_neg hv] at hphase
    refine ⟨rfl, assembled_openedOn _ _, h.stored, .inr hphase, fun hp => ?_, fun _ => h.founded hv⟩
    rw [hphase] at hp
    cases hp

end Recorded

/-- Whatever has been asked of an application, its stores and its database hold what documents and
transactions have made, or nothing. -/
theorem Reached.traced (h : Reached cs a) (hn : cs.length < UInt64.size) :
    ∃ l k, Running cs a l ∧ Recorded cs a.store k := by
  -- Reopening falls back on the last commit, so that is carried along with the current state.
  induction h with
  | fresh hf =>
    rw [fresh_eq] at hf
    cases hf
    refine ⟨.empty, .empty, ?_, ?_⟩
    · exact ⟨rfl, blank_opened.assembled, blank_opened.stored, .inl rfl, fun _ => rfl, nofun⟩
    · exact ⟨rfl, blank_opened.stored, fun _ => rfl, fun hv => absurd rfl hv, Nat.le_refl 0⟩
  | @call cs a c hr ih =>
    rw [List.length_append, List.length_singleton] at hn
    obtain ⟨l, k, hl, hk⟩ := ih (by omega)
    have unchanged (h : SameCommit a.store (a.call c).2.store) :
        Recorded (cs ++ [c]) (a.call c).2.store k := (hk.mono c).of_sameCommit h
    cases c with
    | initChain chain document =>
      obtain ⟨n, hn⟩ := hl.initChain chain document
      exact ⟨n, k, hn, unchanged (a.sameCommit_attempt chain document)⟩
    | deliver text =>
      obtain ⟨n, hn⟩ := hl.deliver text
      exact ⟨n, k, hn, unchanged (sameCommit_settle sameCommit_deliver)⟩
    | beginBlock header => exact ⟨l, k, { hl.mono _ with }, unchanged ⟨rfl, rfl⟩⟩
    | check text => exact ⟨l, k, hl.mono _, unchanged ⟨rfl, rfl⟩⟩
    | exportState => exact ⟨l, k, hl.mono _, unchanged ⟨rfl, rfl⟩⟩
    | commit =>
      obtain ⟨info, hc, hv⟩ := exists_call_commit hl.assembled
      rw [hc]
      exact ⟨l, l, hl.committed info, hk.commit hl hr hn hv⟩
    | reopen =>
      rw [call_reopen hk.record]
      exact ⟨k, k, hk.reopened.mono _, (hk.mono _).of_sameCommit ⟨rfl, rfl⟩⟩

/-- What a chain that runs on a document exports starts a chain again. -/
theorem Holds.exists_exportState (h : a.Holds l) (hl : l.WellFormed) :
    ∃ document validators g, a.exportState = .ok (document, validators) ∧
      Genesis.decode document = .ok g ∧ g.mining.difficulty ≠ 0 ∧ g.trend.trend ≠ "" := by
  obtain ⟨difficulty, count, hd, hc, hne⟩ := hl.work
  obtain ⟨trend, ht, hempty⟩ := hl.trend
  refine ⟨_, _, l.listed ⟨difficulty, count⟩, h.exportState (Ledger.genesis_eq_ok hd hc),
    Genesis.decode_document (h.stored.valid.listed _), hne, ?_⟩
  change l.trend.getD "" ≠ ""
  rw [ht]
  exact hempty

theorem Holds.exportState_of_error {e : GenesisError} (h : a.Holds l) (he : l.genesis = .error e) :
    a.exportState = .error (.genesis e) := by
  unfold App.exportState
  rw [h.phase]
  exact congrArg (Except.mapError AppError.genesis) (h.read_eq (reads_snapshot_of_error he))

/-- A ready chain runs on a document that it has been given, and exports one with its work and its
trend; or else a commit was made before there was a document, and the stores hold nothing. -/
theorem Reached.ready (h : Reached cs a) (hn : cs.length < UInt64.size) (hp : a.phase = .ready) :
    (∃ l, Grown cs l ∧ a.Holds l ∧ ∃ document validators g,
      a.exportState = .ok (document, validators) ∧ Genesis.decode document = .ok g ∧
        g.mining.difficulty ≠ 0 ∧ g.trend.trend ≠ "") ∨
    (CommittedEarly cs ∧ a.Holds .empty ∧ a.exportState =
      .error (.genesis (.failed Mining.State.moduleName (.internal (.missing Mining.difficultyName))))) := by
  obtain ⟨l, k, hl, -⟩ := h.traced hn
  have hh := hl.holds hp
  rcases hl.founded hp with hg | ⟨rfl, he⟩
  · exact .inl ⟨l, hg, hh, hh.exists_exportState hg.wellFormed⟩
  · exact .inr ⟨he, hh, hh.exportState_of_error Ledger.genesis_empty⟩

/-- Opening the database after a first commit makes a ready chain, with or without a document. -/
theorem exists_reached_commit_reopen : ∃ a, Reached [.commit, .reopen] a ∧ a.phase = .ready := by
  obtain ⟨info, hc, hv⟩ := exists_call_commit blank_opened.assembled
  have hr : ((opened ∅ .initial).committed info).call .reopen =
      (.ok .done, opened ((openedOn ∅ .initial).afterCommit info).database info) :=
    call_reopen (readCommit_afterCommit (openedOn ∅ .initial) info)
  refine ⟨_, .call .reopen (.call .commit (.fresh fresh_eq)), ?_⟩
  rw [hc, hr]
  rw [phase_opened, hv]
  rfl

/-- A ledger needs a document. -/
theorem Grown.exists_initChain (h : Grown cs l) :
    ∃ chain document, Call.initChain chain document ∈ cs := by
  induction h with
  | start hm _ _ => exact ⟨_, _, hm⟩
  | step _ _ ih => exact ih

/-- A commit that is made too early leads to a ready chain with nothing to export. -/
theorem Reached.ready_commit_reopen :
    ∃ a e, Reached [.commit, .reopen] a ∧ a.phase = .ready ∧ a.exportState = .error e := by
  obtain ⟨a, ha, hp⟩ := exists_reached_commit_reopen
  rcases Reached.ready ha (by decide) hp with ⟨l, hl, -⟩ | ⟨-, -, he⟩
  · obtain ⟨chain, document, hm⟩ := hl.exists_initChain
    simp at hm
  · exact ⟨a, _, ha, hp, he⟩

end App
end Appchain
