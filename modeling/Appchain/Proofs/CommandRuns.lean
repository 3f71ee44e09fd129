import Appchain.CommandLine
import Appchain.Proofs.LedgerContents
import Appchain.Proofs.Readiness

/-!
# Runs of the command line

Between two commands there is only the database. Once a chain has been
initialized, `Keeps` says what the database holds: the last commit, and the trees
of a ledger. `deliver` opens it, goes through the transactions as the ledger says
and leaves a database that keeps the ledger afterwards, with the next version.
-/

namespace Appchain

open MultiStore Outcome StoreKey

namespace Ledger

/-- Which of some texts are accepted when they are delivered one after another, and the ledger
afterwards. -/
def takeAll (l : Ledger) (texts : List Bytes) : List Bool × Ledger := runAll take l texts

theorem takeAll_append (l : Ledger) (texts others : List Bytes) :
    l.takeAll (texts ++ others) =
      ((l.takeAll texts).1 ++ ((l.takeAll texts).2.takeAll others).1,
        ((l.takeAll texts).2.takeAll others).2) := runAll_append take l texts others

theorem length_takeAll (l : Ledger) (texts : List Bytes) :
    (l.takeAll texts).1.length = texts.length := by
  induction texts generalizing l with
  | nil => rfl
  | cons text texts ih => exact congrArg (· + 1) (ih (l.take text).2)

theorem WellFormed.takeAll {l : Ledger} (h : l.WellFormed) (texts : List Bytes) :
    (l.takeAll texts).2.WellFormed := by
  induction texts generalizing l with
  | nil => exact h
  | cons text texts ih => exact ih (h.take text)

end Ledger

namespace CommandLine

variable {d e : Database} {last : CommitInfo} {l : Ledger} {files : Files} {home chain path text : String}

/-- The tally of transactions, given which of them have been kept. -/
def Tally.of (kept : List Bool) : Tally := ⟨kept.count true, kept.count false⟩

theorem Tally.foldl_count (kept : List Bool) (n : Tally) :
    kept.foldl count n = ⟨n.delivered + kept.count true, n.rejected + kept.count false⟩ := by
  induction kept generalizing n with
  | nil => rfl
  | cons k kept ih =>
    rw [List.foldl_cons, ih]
    cases k <;> simp [count, Nat.add_assoc, Nat.add_comm 1]

/-- No transaction halts the chain, and all of them are counted as the ledger says. -/
theorem foldlM_deliverOne {a : App} (h : a.Holds l) (hl : l.WellFormed) (ts : List (Nat × Bytes))
    (n : Tally) :
    ∃ b, ts.foldlM deliverOne (a, n) =
        .ok (b, (l.takeAll (ts.map Prod.snd)).1.foldl Tally.count n) ∧
      b.Holds (l.takeAll (ts.map Prod.snd)).2 ∧ b.lastCommit = a.lastCommit := by
  induction ts generalizing a l n with
  | nil => exact ⟨a, rfl, h, rfl⟩
  | cons t ts ih =>
    obtain ⟨r, b, hr, hok, hb, hv⟩ := h.deliver_take (hl.ordinary_execute .deliver) t.2
    obtain ⟨c, hc, hcl, hcv⟩ := ih hb (hl.take t.2) (n.count r.isOk)
    have hone : deliverOne (a, n) t = .ok (b, n.count r.isOk) := by
      unfold deliverOne
      rw [hr]
      rfl
    refine ⟨c, ?_, hcl, hcv.trans hv⟩
    rw [List.foldlM_cons, hone]
    change ts.foldlM deliverOne (b, n.count r.isOk) = _
    rw [hc, hok]
    rfl

/-- The database has a last commit, and its trees hold a ledger on which the chain runs. -/
structure Keeps (d : Database) (last : CommitInfo) (l : Ledger) : Prop where
  record : readCommit (d.tree metadataName) = .ok last
  started : last.version ≠ 0
  stored : l.Stored (openedOn d last).contents
  hash : last.appHash = .of (contentsInput StoreKey.application (openedOn d last).contents)
  wellFormed : l.WellFormed

namespace Keeps

theorem application_eq (h : Keeps d last l) : application d = .ok (.opened d last) := by
  unfold application
  rw [App.assemble_ofDatabase h.record]
  rfl

theorem holds (h : Keeps d last l) : (App.opened d last).Holds l where
  phase := by rw [App.phase_opened, if_neg h.started]
  screen := rfl
  assembled := assembled_openedOn d last
  stored := h.stored

/-- What is committed is kept. -/
theorem of_commit {a : App} (h : a.Holds l) (hl : l.WellFormed)
    (hn : a.lastCommit.version.toNat + 1 < UInt64.size) :
    ∃ info b, a.commit = .ok (info, b) ∧ Keeps b.store.database info l ∧
      info.version.toNat = a.lastCommit.version.toNat + 1 := by
  obtain ⟨info, hc, hv, hh⟩ := h.commit
  have hcount : info.version.toNat = a.lastCommit.version.toNat + 1 := by
    rw [hv, Word.toNat_add_one hn]
  -- The hash was taken of the block. The trees that it has become hold the same ledger.
  have hs := h.stored.reopened info info
  refine ⟨info, _, hc, ⟨readCommit_afterCommit a.store info, ?_, hs, ?_, hl⟩, hcount⟩
  · intro hz
    rw [hz] at hcount
    cases hcount
  · rw [hh, h.stored.contentsInput_eq hs]
    rfl

/-- Databases that keep one ledger have the same trees. -/
theorem tree_eq {other : CommitInfo} (h : Keeps d last l) (h' : Keeps e other l) {key : StoreKey}
    (hk : key ∈ StoreKey.application) (hp : key.kind = .persistent) :
    d.tree key.name = e.tree key.name := by
  have ht := h.stored.tree_eq h'.stored hk hp
  unfold contents at ht
  simp only [hp] at ht
  exact ht

theorem appHash_eq {other : CommitInfo} (h : Keeps d last l) (h' : Keeps e other l) :
    last.appHash = other.appHash := by
  rw [h.hash, h'.hash, h.stored.contentsInput_eq h'.stored]

end Keeps

/-! What the commands do. -/

/-- The transactions of a text. -/
def blockOf (text : String) : List Bytes := (transactions text).map Prod.snd

/-- A block is delivered as the ledger says. -/
theorem Keeps.deliver (h : Keeps d last l) (hn : last.version.toNat + 1 < UInt64.size)
    (hf : files path = .ok (Bytes.ofString text)) (home chain : String) (withMetrics : Bool) :
    ∃ info e, deliver files d home chain path withMetrics =
        .ok { database := e, output := report info (.of (l.takeAll (blockOf text)).1) withMetrics } ∧
      Keeps e info (l.takeAll (blockOf text)).2 ∧ info.version.toNat = last.version.toNat + 1 := by
  have hbegin := h.holds.beginBlock ⟨chain, (App.opened d last).lastCommit.version + 1⟩
  obtain ⟨b, hb, hbl, hbv⟩ := foldlM_deliverOne hbegin h.wellFormed (transactions text) ⟨0, 0⟩
  have hlast : b.lastCommit = last := hbv
  obtain ⟨info, c, hc, hk, hv⟩ := Keeps.of_commit hbl (h.wellFormed.takeAll _) (hlast ▸ hn)
  have hblock : block (.opened d last) chain (transactions text) =
      .ok (info, .of (l.takeAll (blockOf text)).1, c) := by
    unfold block
    change (do let s ← (transactions text).foldlM deliverOne (_, ⟨0, 0⟩); _) = _
    rw [hb, Tally.foldl_count, Nat.zero_add, Nat.zero_add]
    simp only [bind, Except.bind, hc, mapError_ok]
    rfl
  refine ⟨info, c.store.database, ?_, hk, hlast ▸ hv⟩
  unfold CommandLine.deliver
  simp only [hf, mapError_ok, bind, Except.bind, Bytes.toString?_ofString, h.application_eq,
    h.holds.phase, hblock, ne_eq, not_true_eq_false, ↓reduceIte]
  rfl

/-- Nothing is delivered unless there is a text and a chain that is ready. -/
theorem deliver_eq_ok {withMetrics : Bool} {o : Outcome}
    (h : deliver files d home chain path withMetrics = .ok o) :
    (∃ text, files path = .ok (Bytes.ofString text)) ∧
      ∃ a, application d = .ok a ∧ a.phase = .ready := by
  unfold deliver at h
  obtain ⟨b, hb, h⟩ := bind_eq_ok.mp h
  cases ht : Bytes.toString? b with
  | none =>
    simp only [ht] at h
    cases h
  | some text =>
    simp only [ht] at h
    obtain ⟨a, ha, h⟩ := bind_eq_ok.mp h
    by_cases hp : a.phase = .ready
    · refine ⟨⟨text, ?_⟩, a, ha, hp⟩
      rw [← Bytes.eq_ofString_of_toString? ht]
      exact mapError_eq_ok.mp hb
    · rw [if_pos hp] at h
      cases h

theorem application_empty : application ∅ = .ok (.opened ∅ .initial) :=
  congrArg (Except.mapError (Failure.ofApp "failed to assemble application")) App.fresh_eq

theorem phase_ne_ready_of_empty {a : App} (ha : application ∅ = .ok a) : a.phase ≠ .ready := by
  rw [application_empty] at ha
  cases ha
  exact nofun

/-- An acceptable document initializes a home. -/
theorem exists_initChain {document : Bytes} {g : Genesis} (hf : files path = .ok document)
    (hd : Genesis.decode document = .ok g) (hl : Ledger.ofGenesis g = .ok l) (home chain : String) :
    ∃ e last, initChain files ∅ home chain path =
        .ok { database := e, output := initialReport home chain last } ∧
      Keeps e last l ∧ last.version.toNat = 1 := by
  obtain ⟨b, hb, hbl, hbv⟩ := App.initChain_of_ok hd hl chain
  have hn : b.lastCommit.version.toNat + 1 < UInt64.size := by
    rw [hbv]
    decide
  obtain ⟨info, c, hc, hk, hv⟩ := Keeps.of_commit hbl (.of_genesis hl) hn
  rw [hbv] at hv
  refine ⟨c.store.database, info, ?_, hk, hv⟩
  unfold initChain
  simp only [hf, mapError_ok, bind, Except.bind, application_empty, hb, hc]
  rfl

/-- What a chain has been initialized with is an acceptable document, given to an application that
was not ready. -/
theorem initChain_eq_ok {o : Outcome} (h : initChain files d home chain path = .ok o) :
    ∃ a b document validators, application d = .ok a ∧ a.phase ≠ .ready ∧ files path = .ok document ∧
      a.initChain chain document = .ok (validators, b) := by
  unfold initChain at h
  obtain ⟨document, hf, h⟩ := bind_eq_ok.mp h
  obtain ⟨a, ha, h⟩ := bind_eq_ok.mp h
  obtain ⟨⟨validators, b⟩, hi, -⟩ := bind_eq_ok.mp h
  have hi := mapError_eq_ok.mp hi
  refine ⟨a, b, document, validators, ha, fun hp => ?_, mapError_eq_ok.mp hf, hi⟩
  rw [App.initChain_of_ready hp] at hi
  cases hi

theorem Keeps.initChain_ne_ok (h : Keeps d last l) (o : Outcome) :
    initChain files d home chain path ≠ .ok o := by
  intro hi
  obtain ⟨a, -, -, -, ha, hp, -⟩ := initChain_eq_ok hi
  rw [h.application_eq] at ha
  cases ha
  exact hp h.holds.phase

theorem exists_keeps_of_initChain {o : Outcome} (h : initChain files ∅ home chain path = .ok o) :
    ∃ last l, Keeps o.database last l := by
  obtain ⟨a, b, document, validators, ha, -, hf, hi⟩ := initChain_eq_ok h
  rw [application_empty] at ha
  cases ha
  obtain ⟨g, l, hd, hl, -⟩ := App.blank_opened.exists_of_initChain hi
  obtain ⟨e, last, he, hk, -⟩ := exists_initChain hf hd hl home chain
  rw [h] at he
  cases he
  exact ⟨last, l, hk⟩

theorem exportState_eq_ok {output : Option String} {o : Outcome} (h : exportState d output = .ok o) :
    o.database = d := by
  unfold exportState at h
  obtain ⟨a, -, h⟩ := bind_eq_ok.mp h
  obtain ⟨⟨document, validators⟩, -, h⟩ := bind_eq_ok.mp h
  cases output <;> cases h <;> rfl

/-- No command takes the chain away. -/
theorem Keeps.run (h : Keeps d last l) (hv : last.version ≠ Word.maximum) {i : Invocation}
    {o : Outcome} (ho : run files d i = .ok o) : ∃ info n, Keeps o.database info n := by
  obtain ⟨home, chain, command⟩ := i
  cases command with
  | init path => exact absurd ho (h.initChain_ne_ok o)
  | deliver path withMetrics =>
    obtain ⟨⟨text, hf⟩, -⟩ := deliver_eq_ok ho
    obtain ⟨info, e, he, hk, -⟩ :=
      h.deliver (Word.toNat_add_one_lt_size hv) hf home chain withMetrics
    change CommandLine.deliver files d home chain path withMetrics = .ok o at ho
    rw [he] at ho
    cases ho
    exact ⟨info, _, hk⟩
  | exportState output =>
    rw [exportState_eq_ok ho]
    exact ⟨last, l, h⟩
  | version =>
    cases ho
    exact ⟨last, l, h⟩

/-- Over an empty home only a document leaves anything. -/
theorem run_empty {i : Invocation} {o : Outcome} (ho : run files ∅ i = .ok o) :
    o.database = ∅ ∨ ∃ info n, Keeps o.database info n := by
  obtain ⟨home, chain, command⟩ := i
  cases command with
  | init path => exact .inr (exists_keeps_of_initChain ho)
  | deliver path withMetrics =>
    obtain ⟨-, a, ha, hp⟩ := deliver_eq_ok ho
    exact absurd hp (phase_ne_ready_of_empty ha)
  | exportState output => exact .inl (exportState_eq_ok ho)
  | version =>
    cases ho
    exact .inl rfl

/-- The database of a home after commands that have succeeded, beginning with nothing. A command
that fails leaves the database as it was. The version is an unchecked counter, so no command is run
at the greatest word. -/
inductive Home : Database → Prop
  | empty : Home ∅
  | run {d : Database} {files : Files} {i : Invocation} {o : Outcome} :
      Home d → (∀ a, application d = .ok a → a.lastCommit.version ≠ Word.maximum) →
      CommandLine.run files d i = .ok o → Home o.database

/-- There is nothing in a home until it is initialized, and a ledger from then on. -/
theorem Home.empty_or_keeps (h : Home d) : d = ∅ ∨ ∃ last l, Keeps d last l := by
  induction h with
  | empty => exact .inl rfl
  | run _ hv ho ih =>
    rcases ih with rfl | ⟨last, l, hk⟩
    · exact run_empty ho
    · exact .inr (hk.run (hv _ hk.application_eq) ho)

/-- A home whose chain is ready keeps a ledger. -/
theorem Home.exists_keeps {a : App} (h : Home d) (ha : application d = .ok a)
    (hp : a.phase = .ready) : ∃ l, Keeps d a.lastCommit l := by
  rcases h.empty_or_keeps with rfl | ⟨last, l, hk⟩
  · exact absurd hp (phase_ne_ready_of_empty ha)
  · rw [hk.application_eq] at ha
    cases ha
    exact ⟨l, hk⟩

/-- The command line exports the document from the database. -/
def Exports (d : Database) (document : Bytes) : Prop :=
  ∀ files home chain,
    run files d ⟨home, chain, .exportState none⟩ =
      .ok { database := d, output := document ++ [10] } ∧
    ∀ path, run files d ⟨home, chain, .exportState (some path)⟩ =
      .ok { database := d, output := [], file := some (path, document) }

/-- Databases that keep one ledger export one document. -/
theorem Keeps.exists_exports {other : CommitInfo} (h : Keeps d last l) (h' : Keeps e other l) :
    ∃ document, Exports d document ∧ Exports e document := by
  obtain ⟨difficulty, count, hd, hc, -⟩ := h.wellFormed.work
  have hg : l.genesis = .ok (l.listed ⟨difficulty, count⟩) := Ledger.genesis_eq_ok hd hc
  have exports {d : Database} {last : CommitInfo} (h : Keeps d last l) :
      Exports d (l.listed ⟨difficulty, count⟩).document := by
    intro files home chain
    have he := h.holds.exportState hg
    constructor
    · change exportState d none = _
      unfold exportState
      simp only [h.application_eq, he, bind, Except.bind, mapError_ok]
      rfl
    · intro path
      change exportState d (some path) = _
      unfold exportState
      simp only [h.application_eq, he, bind, Except.bind, mapError_ok]
      rfl
  exact ⟨_, exports h, exports h'⟩

end CommandLine
end Appchain
