import Appchain.Proofs.GenesisWellFormed
import Appchain.Proofs.Rejections
import Appchain.Proofs.WireTransactions

/-!
# Runs of the application

A run starts a fresh application with a genesis document and goes through blocks
of transactions, with or without opening the database again after a commit. At
every point the stores hold the ledger that comes out of the document and the
accepted transactions, carried out one after another, and nothing else.
-/

namespace Appchain

open MultiStore Outcome

/-- What a node asks of the application. -/
inductive Event where
  | beginBlock (header : Header)
  | check (text : Bytes)
  | deliver (text : Bytes)
  | commit
  /-- A commit, after which the database is opened again. -/
  | restart

def Event.commits : Event → Bool
  | .commit | .restart => true
  | _ => false

namespace App

/-- The application over an empty database. -/
def fresh : Except AppError App := assemble (.ofDatabase ∅)

def perform (a : App) : Event → Except AppError App
  | .beginBlock header => .ok (a.beginBlock header)
  | .check text => (a.check text).map fun _ => a
  | .deliver text => (a.deliver text).map Prod.snd
  | .commit => a.commit.map Prod.snd
  | .restart => do
    let r ← a.commit
    assemble (.ofDatabase r.2.store.database)

/-- The transaction that is accepted with the event, if there is one. -/
def accepted (a : App) : Event → Option Transaction
  | .deliver text =>
    match a.deliver text with
    | .ok (r, _) => if r.isOk then (Transaction.decode .standard text).toOption else none
    | .error _ => none
  | _ => none

/-- An application that has come from a genesis document and some accepted transactions. The
version is an unchecked counter, so no commit may be made at the greatest word. -/
inductive Run (g : Genesis) : List Transaction → App → Prop
  | start {a b : App} {chain : String} {document : Bytes} {validators : List Validator} :
      fresh = .ok a → Genesis.decode document = .ok g →
      a.initChain chain document = .ok (validators, b) → Run g [] b
  | step {ts : List Transaction} {a b : App} {e : Event} :
      Run g ts a → (e.commits = true → a.lastCommit.version ≠ Word.maximum) →
      a.perform e = .ok b → Run g (ts ++ (a.accepted e).toList) b

/-- The application is ready, and its stores hold the ledger. -/
structure Holds (a : App) (l : Ledger) : Prop where
  phase : a.phase = .ready
  screen : a.screen = Admission.screen
  assembled : a.store.Assembled
  stored : l.Stored a.store.contents

end App

theorem TxError.not_isOk_rejected (e : TxError) : ¬ (Response.rejected e).isOk = true := by
  unfold Response.isOk Response.rejected
  rw [decide_eq_true_eq]
  exact Nat.ne_of_gt e.code_pos

theorem Context.holds_new {s : MultiStore} {l : Ledger} (h : s.Assembled) (hl : l.Stored s.contents)
    (header : Header) (mode : Mode) : (Context.new s header mode).Holds s mode l where
  store_eq := rfl
  mode_eq := rfl
  sound := sound_new h header mode
  stored := hl

/-- The writes of a context carry its ledger over to the stores of the block. -/
theorem Context.Holds.write {s : MultiStore} {mode : Mode} {l : Ledger} {c : Context}
    (h : c.Holds s mode l) :
    ∃ t, s.write c.writes = .ok t ∧ t.Assembled ∧ l.Stored t.contents ∧
      t.lastCommit = s.lastCommit := by
  have hs : s.Assembled := h.store_eq ▸ h.sound.assembled
  obtain ⟨t, ht, ha, hc⟩ := hs.write h.sound.fits
  refine ⟨t, ht, ha, h.stored.congr fun key hk => ?_, (sameCommit_write ht).lastCommit_eq⟩
  rw [hc key hk, ← h.store_eq]
  rfl

/-- Trees that agree on the persistent stores, with no parameter marked. -/
theorem Ledger.Stored.of_persistent {l : Ledger} {t u : StoreKey → Tree} (h : l.Stored t)
    (keeps : ∀ key ∈ StoreKey.application, key.kind = .persistent → u key = t key)
    (hm : u .changedParameters = ∅) : l.Stored u where
  main := keeps .main (by decide) rfl ▸ h.main
  accounts := keeps .accounts (by decide) rfl ▸ h.accounts
  work := keeps .work (by decide) rfl ▸ h.work
  packets := keeps .packets (by decide) rfl ▸ h.packets
  bonds := keeps .bonds (by decide) rfl ▸ h.bonds
  fees := keeps .fees (by decide) rfl ▸ h.fees
  parameters := keeps .parameters (by decide) rfl ▸ h.parameters
  marks := by
    rw [hm]
    constructor
    · intro k v hk
      cases hk
    · exact Tree.only_empty _

/-- A commit keeps what the stores hold. -/
theorem Ledger.Stored.afterCommit {l : Ledger} {s : MultiStore} (h : l.Stored s.contents)
    (info : CommitInfo) : l.Stored (s.afterCommit info).contents := by
  apply h.of_persistent
  · intro key hk hp
    exact (contents_afterCommit s info hk).trans (if_pos hp)
  · exact contents_afterCommit s info (by decide)

/-- What has been committed is there when the database is opened again. -/
theorem Ledger.Stored.reopened {l : Ledger} {s : MultiStore} (h : l.Stored s.contents)
    (info last : CommitInfo) : l.Stored (openedOn (s.afterCommit info).database last).contents := by
  apply (h.afterCommit info).of_persistent
  · intro key hk hkind
    unfold contents openedOn
    simp only [hkind]
    rfl
  · rfl

namespace Ledger

/-- Whether some bytes are accepted when they are delivered, and the ledger afterwards. -/
def take (l : Ledger) (text : Bytes) : Bool × Ledger :=
  match Transaction.decode .standard text with
  | .error _ => (false, l)
  | .ok t =>
    match l.execute .deliver t with
    | .error _ => (false, l)
    | .ok n => (true, n)

theorem take_of_decode_error {l : Ledger} {text : Bytes} {e : CodecError}
    (hd : Transaction.decode .standard text = .error e) : l.take text = (false, l) := by
  unfold take
  rw [hd]

theorem take_of_execute {l n : Ledger} {text : Bytes} {t : Transaction}
    (hd : Transaction.decode .standard text = .ok t) (he : l.execute .deliver t = .ok n) :
    l.take text = (true, n) := by
  unfold take
  simp only [hd, he]

/-- The ledger afterwards is what the transaction makes of it if it is accepted. -/
theorem foldlM_take (l : Ledger) (text : Bytes) :
    (if (l.take text).1 then (Transaction.decode .standard text).toOption else none).toList.foldlM
      (fun l t => l.execute .deliver t) l = .ok (l.take text).2 := by
  unfold take
  cases Transaction.decode .standard text with
  | error e => rfl
  | ok t =>
    cases he : l.execute .deliver t with
    | error e =>
      simp only [he]
      rfl
    | ok n =>
      simp only [he]
      change [t].foldlM (fun l t => l.execute .deliver t) l = _
      rw [List.foldlM_cons, he]
      rfl

theorem WellFormed.take {l : Ledger} (h : l.WellFormed) (text : Bytes) : (l.take text).2.WellFormed :=
  foldlM_preserves (fun _ _ _ _ hk he => hk.execute he) h (l.foldlM_take text)

end Ledger

namespace App

variable {a b : App} {l : Ledger} {text : Bytes} {t : Transaction} {mode : Mode}

theorem Holds.context (h : a.Holds l) (mode : Mode) : (a.context mode).Holds a.store mode l :=
  Context.holds_new h.assembled h.stored _ _

/-- What an operation answers when it is run on the application's own context. -/
def read {ε α : Type} (a : App) (x : ExecWith ε α) : Except ε α := (x.run.run a.readingContext).1

theorem Holds.read_eq {ε α : Type} {x : ExecWith ε α} {r : Except ε α} (h : a.Holds l)
    (hr : Reads a.store .query x l r) : a.read x = r := congrArg Prod.fst (hr _ (h.context .query))

theorem Holds.run_of_codec {e : CodecError} (h : a.Holds l) (mode : Mode)
    (hd : Transaction.decode .standard text = .error e) :
    a.run mode text = .ok (.rejected (.codec e), none) := by
  unfold run
  rw [h.phase, hd]
  rfl

/-- A transaction that the ledger rejects is answered with the error and writes nothing. -/
theorem Holds.run_of_error {e : TxError} (h : a.Holds l)
    (hd : Transaction.decode .standard text = .ok t) (he : l.execute mode t = .error e)
    (ho : e.isOrdinary = true) : a.run mode text = .ok (.rejected e, none) := by
  have hr := runs_execute h.screen (Transaction.valid_of_decode hd) _ (h.context mode)
  rw [he] at hr
  change ((a.execute t).run.run (a.context mode)).1 = .error e at hr
  unfold run
  rw [h.phase, hd]
  simp only [ne_eq, not_true_eq_false, ↓reduceIte]
  cases hx : (a.execute t).run.run (a.context mode) with
  | mk r c =>
    rw [hx] at hr
    cases hr
    cases e with
    | store s => cases ho
    | _ => rfl

/-- The writes of a transaction that the ledger carries out fit the stores. -/
theorem Holds.run_of_ok {n : Ledger} (h : a.Holds l)
    (hd : Transaction.decode .standard text = .ok t) (he : l.execute mode t = .ok n) :
    ∃ c : Context, a.run mode text = .ok (.accepted t.events, c.writes) ∧
      c.Holds a.store mode n := by
  have hr := runs_execute h.screen (Transaction.valid_of_decode hd) _ (h.context mode)
  rw [he] at hr
  obtain ⟨c, hc, hn⟩ := hr
  refine ⟨c, ?_, hn⟩
  unfold run
  rw [h.phase, hd]
  simp only [ne_eq, not_true_eq_false, ↓reduceIte]
  rw [hc]

theorem Holds.deliver_of_ok {n : Ledger} (h : a.Holds l)
    (hd : Transaction.decode .standard text = .ok t) (he : l.execute .deliver t = .ok n) :
    ∃ b, a.deliver text = .ok (.accepted t.events, b) ∧ b.Holds n ∧
      b.lastCommit = a.lastCommit := by
  obtain ⟨c, hr, hc⟩ := h.run_of_ok hd he
  obtain ⟨s, hs, ha, hl, hv⟩ := hc.write
  refine ⟨{ a with store := s }, ?_, ⟨h.phase, h.screen, ha, hl⟩, hv⟩
  unfold deliver
  rw [hr]
  simp only [bind, Except.bind, hs, mapError_ok, pure, Except.pure]

theorem accepted_deliver {r : Response} (h : a.deliver text = .ok (r, b)) :
    a.accepted (.deliver text) =
      if r.isOk then (Transaction.decode .standard text).toOption else none := by
  simp only [accepted, h]

/-- What is delivered is answered as it was run. -/
theorem run_of_deliver {r : Response} (h : a.deliver text = .ok (r, b)) :
    ∃ w, a.run .deliver text = .ok (r, w) := by
  unfold deliver at h
  obtain ⟨⟨r', w⟩, hr, h⟩ := bind_eq_ok.mp h
  refine ⟨w, ?_⟩
  cases w with
  | none =>
    cases h
    exact hr
  | some w =>
    obtain ⟨s, -, h⟩ := bind_eq_ok.mp h
    cases h
    exact hr

theorem deliver_of_none {r : Response} (hr : a.run .deliver text = .ok (r, none)) :
    a.deliver text = .ok (r, a) := by
  unfold deliver
  rw [hr]
  rfl

/-- Beginning a block does not matter to the ledger. -/
theorem Holds.beginBlock (h : a.Holds l) (header : Header) : (a.beginBlock header).Holds l :=
  ⟨h.phase, h.screen, h.assembled, h.stored⟩

/-- The application after a commit. -/
def committed (a : App) (info : CommitInfo) : App :=
  { a with store := a.store.afterCommit info, header := none }

/-- Committing a block keeps the ledger. -/
theorem Holds.committed (h : a.Holds l) (info : CommitInfo) : (a.committed info).Holds l where
  phase := h.phase
  screen := h.screen
  assembled := h.assembled.afterCommit info
  stored := h.stored.afterCommit info

theorem exists_commit (h : a.store.Assembled) :
    ∃ info, a.commit = .ok (info, a.committed info) ∧
      info.version = a.lastCommit.version + 1 ∧
      info.appHash = .of (contentsInput StoreKey.application a.store.contents) := by
  obtain ⟨info, hs, hv, hh⟩ := h.commit
  refine ⟨info, ?_, hv, hh⟩
  unfold App.commit
  rw [hs]
  rfl

theorem Holds.commit (h : a.Holds l) :
    ∃ info, a.commit = .ok (info, a.committed info) ∧
      info.version = a.lastCommit.version + 1 ∧
      info.appHash = .of (contentsInput StoreKey.application a.store.contents) :=
  exists_commit h.assembled

/-- Opening the database again after a commit keeps the ledger. -/
theorem Holds.restart (h : a.Holds l) (hv : a.lastCommit.version ≠ Word.maximum) :
    ∃ b, a.perform .restart = .ok b ∧ b.Holds l := by
  obtain ⟨info, hc, hinfo, -⟩ := h.commit
  have hpos : 0 < info.version := by
    rw [UInt64.lt_iff_toNat_lt, hinfo]
    have hs := Word.toNat_succ hv
    rw [Word.succ, if_neg hv] at hs
    rw [hs]
    exact Nat.succ_pos _
  refine ⟨opened (a.committed info).store.database info, ?_, ?_⟩
  · simp only [perform, hc, bind, Except.bind]
    exact assemble_ofDatabase (readCommit_afterCommit a.store info)
  exact ⟨if_pos hpos, rfl, assembled_openedOn _ _, h.stored.reopened info info⟩

/-- What is delivered is answered and carried out as the ledger says. -/
theorem Holds.deliver_take (h : a.Holds l) (ho : ∀ t, Ordinary (l.execute .deliver t)) (text : Bytes) :
    ∃ r b, a.deliver text = .ok (r, b) ∧ r.isOk = (l.take text).1 ∧ b.Holds (l.take text).2 ∧
      b.lastCommit = a.lastCommit := by
  unfold Ledger.take
  cases hd : Transaction.decode .standard text with
  | error e =>
    exact ⟨_, a, deliver_of_none (h.run_of_codec .deliver hd),
      Bool.eq_false_iff.mpr (TxError.not_isOk_rejected _), h, rfl⟩
  | ok t =>
    cases he : l.execute .deliver t with
    | error e =>
      simp only [he]
      exact ⟨_, a, deliver_of_none (h.run_of_error hd he (ho t e he)),
        Bool.eq_false_iff.mpr e.not_isOk_rejected, h, rfl⟩
    | ok n =>
      obtain ⟨b, hr, hb, hv⟩ := h.deliver_of_ok hd he
      simp only [he]
      exact ⟨_, b, hr, rfl, hb, hv⟩

/-- What is delivered is answered, and what is accepted is carried out. -/
theorem Holds.deliver_of_ordinary (h : a.Holds l) (ho : ∀ t, Ordinary (l.execute .deliver t))
    (text : Bytes) :
    ∃ r b n, a.deliver text = .ok (r, b) ∧ b.Holds n ∧
      (a.accepted (.deliver text)).toList.foldlM (fun l t => l.execute .deliver t) l = .ok n := by
  obtain ⟨r, b, hr, hok, hb, -⟩ := h.deliver_take ho text
  refine ⟨r, b, _, hr, hb, ?_⟩
  rw [accepted_deliver hr, hok]
  exact l.foldlM_take text

theorem Holds.deliver (h : a.Holds l) (hl : l.WellFormed) (text : Bytes) :
    ∃ r b n, a.deliver text = .ok (r, b) ∧ b.Holds n ∧
      (a.accepted (.deliver text)).toList.foldlM (fun l t => l.execute .deliver t) l = .ok n :=
  h.deliver_of_ordinary (hl.ordinary_execute .deliver) text

/-- Any bytes are answered, and the answer to a transaction is about the transaction. -/
theorem Holds.run_of_ordinary {mode : Mode} (h : a.Holds l)
    (ho : ∀ t, Ordinary (l.execute mode t)) (text : Bytes) :
    ∃ r w, a.run mode text = .ok (r, w) ∧ ∀ t, Transaction.decode .standard text = .ok t →
      r.code ≠ 1 ∧ r.code ≠ 2 ∧ r.code ≠ 6 := by
  cases hd : Transaction.decode .standard text with
  | error e => exact ⟨_, _, h.run_of_codec mode hd, fun _ h => by cases h⟩
  | ok t =>
    cases he : l.execute mode t with
    | error e => exact ⟨_, _, h.run_of_error hd he (ho t e he), fun _ _ => e.isOrdinary_iff.mp (ho t e he)⟩
    | ok n =>
      obtain ⟨c, hc, -⟩ := h.run_of_ok hd he
      exact ⟨_, _, hc, fun _ _ => ⟨nofun, nofun, nofun⟩⟩

theorem Holds.run_answers (h : a.Holds l) (hl : l.WellFormed) (mode : Mode) (text : Bytes) :
    ∃ r w, a.run mode text = .ok (r, w) ∧ ∀ t, Transaction.decode .standard text = .ok t →
      r.code ≠ 1 ∧ r.code ≠ 2 ∧ r.code ≠ 6 :=
  h.run_of_ordinary (hl.ordinary_execute mode) text

/-- The application does not stop, and its stores go on holding the ledger. -/
theorem Holds.perform (h : a.Holds l) (hl : l.WellFormed) {e : Event}
    (hv : e.commits = true → a.lastCommit.version ≠ Word.maximum) :
    ∃ b n, a.perform e = .ok b ∧ b.Holds n ∧
      (a.accepted e).toList.foldlM (fun l t => l.execute .deliver t) l = .ok n := by
  cases e with
  | beginBlock header => exact ⟨_, l, rfl, h.beginBlock header, rfl⟩
  | check text =>
    obtain ⟨r, w, hr, -⟩ := h.run_answers hl .check text
    refine ⟨a, l, ?_, h, rfl⟩
    change (Prod.fst <$> a.run .check text).map _ = _
    rw [hr]
    rfl
  | deliver text =>
    obtain ⟨r, b, n, hr, hb, hn⟩ := h.deliver hl text
    refine ⟨b, n, ?_, hb, hn⟩
    change (a.deliver text).map _ = _
    rw [hr]
    rfl
  | commit =>
    obtain ⟨info, hr, -⟩ := h.commit
    refine ⟨_, l, ?_, h.committed info, rfl⟩
    change a.commit.map _ = _
    rw [hr]
    rfl
  | restart =>
    obtain ⟨b, hr, hb⟩ := h.restart (hv rfl)
    exact ⟨b, l, hr, hb, rfl⟩

theorem fresh_eq : fresh = .ok (opened ∅ .initial) := by
  unfold fresh
  exact assemble_ofDatabase (by rfl)

theorem contents_opened : (openedOn ∅ .initial).contents = fun _ => ∅ := by
  funext key
  unfold contents openedOn
  cases key.kind with
  | persistent => rfl
  | transient =>
    simp only [Database.tree, OrderedMap.get?_insert]
    split <;> rfl

theorem stored_empty : Ledger.empty.Stored fun _ => ∅ where
  main := ⟨rfl, Tree.only_empty _⟩
  accounts := ⟨.empty _ _, rfl, Tree.only_empty _, fun _ _ h => nomatch h⟩
  work := ⟨rfl, rfl, Tree.only_empty _⟩
  packets := ⟨.empty _ _, .empty _ _, fun _ _ => rfl, Tree.only_empty _, fun _ _ _ h => nomatch h⟩
  bonds := .empty _ _
  fees := ⟨rfl, Tree.only_empty _, fun _ h => nomatch h⟩
  parameters := ⟨rfl, rfl, Tree.only_empty _⟩
  marks := ⟨fun _ _ h => (nomatch h), Tree.only_empty _⟩

section Start

variable {g : Genesis} {document : Bytes}

theorem load_of_ok {chain : String} {c : Context} {s : MultiStore}
    (h : (Genesis.take document).run.run (.new a.store ⟨chain, 0⟩ .initChain) = (.ok g, c))
    (hs : a.store.write c.writes = .ok s) :
    a.load chain document =
      (.ok g.staking.validators, { a with store := s, phase := .ready, chain }) := by
  unfold load
  rw [h]
  simp only [hs]

theorem load_of_error {chain : String} {e : GenesisError} {c : Context}
    (h : (Genesis.take document).run.run (.new a.store ⟨chain, 0⟩ .initChain) = (.error e, c)) :
    a.load chain document = (.error (.genesis e), a.abort) := by
  unfold load
  rw [h]

theorem attempt_of_uninitialized (hp : a.phase = .uninitialized) (chain : String) (document : Bytes) :
    a.attempt chain document = { a with phase := .initializing }.load chain document := if_pos hp

theorem attempt_of_ne (hp : a.phase ≠ .uninitialized) (chain : String) (document : Bytes) :
    a.attempt chain document = (.error (.genesis (.wrongPhase .uninitialized a.phase)), a) := if_neg hp

theorem initChain_eq_ok {chain : String} {c : Context} {s : MultiStore}
    (h : (Genesis.start a.phase document).run.run (.new a.store ⟨chain, 0⟩ .initChain) = (.ok g, c))
    (hs : a.store.write c.writes = .ok s) :
    a.initChain chain document =
      .ok (g.staking.validators, { a with store := s, phase := .ready, chain }) := by
  unfold Genesis.start at h
  split at h
  · next hp =>
    have hl := load_of_ok (a := { a with phase := .initializing }) h hs
    rw [initChain, attempt_of_uninitialized hp, hl]
    rfl
  · cases h

theorem initChain_eq_error {chain : String} {e : GenesisError}
    (h : ((Genesis.start a.phase document).run.run (.new a.store ⟨chain, 0⟩ .initChain)).1
      = .error e) : a.initChain chain document = .error (.genesis e) := by
  unfold Genesis.start at h
  split at h
  · next hp =>
    have hl := load_of_error (a := { a with phase := .initializing }) (Prod.ext h rfl)
    rw [initChain, attempt_of_uninitialized hp, hl]
    rfl
  · next hp =>
    cases h
    rw [initChain, attempt_of_ne hp]
    rfl

/-- No genesis has been loaded, and the stores hold nothing. -/
structure Blank (a : App) : Prop where
  phase : a.phase = .uninitialized
  screen : a.screen = Admission.screen
  assembled : a.store.Assembled
  stored : Ledger.empty.Stored a.store.contents

theorem blank_opened : (opened ∅ .initial).Blank where
  phase := rfl
  screen := rfl
  assembled := assembled_openedOn ∅ .initial
  stored := contents_opened ▸ stored_empty

/-- A document is loaded into empty stores as its ledger is made. -/
theorem leaves_start {s : MultiStore} (hd : Genesis.decode document = .ok g) (c : Context)
    (hc : c.Holds s .initChain .empty) :
    match Ledger.ofGenesis g with
    | .ok l => ∃ d, (Genesis.start .uninitialized document).run.run c = (.ok g, d) ∧
        d.Holds s .initChain l
    | .error e => ((Genesis.start .uninitialized document).run.run c).1 = .error e := by
  have hs : Genesis.start .uninitialized document = (do g.load; return g) := by
    unfold Genesis.start Genesis.take
    rw [if_pos rfl, hd]
  have hr := Genesis.leaves_load (Genesis.valid_of_decode hd) c hc
  rw [hs]
  cases hl : Ledger.ofGenesis g with
  | ok l =>
    rw [hl] at hr
    obtain ⟨u, d, hrun, hn⟩ := hr
    exact ⟨d, run_bind_ok hrun, hn⟩
  | error e =>
    rw [hl] at hr
    exact run_bind_error _ hr

/-- A chain starts if the document is acceptable, with its ledger and its validators. -/
theorem Blank.initChain_of_ok (h : a.Blank) (hd : Genesis.decode document = .ok g)
    (hl : Ledger.ofGenesis g = .ok l) (chain : String) :
    ∃ b, a.initChain chain document = .ok (g.staking.validators, b) ∧ b.Holds l ∧
      SameCommit a.store b.store := by
  have hr := leaves_start hd _ (Context.holds_new h.assembled h.stored ⟨chain, 0⟩ .initChain)
  rw [hl, ← h.phase] at hr
  obtain ⟨c, hrun, hn⟩ := hr
  obtain ⟨s, hs, ha, hstored, -⟩ := hn.write
  exact ⟨_, initChain_eq_ok hrun hs, ⟨rfl, h.screen, ha, hstored⟩, sameCommit_write hs⟩

/-- A document that is not acceptable does not start a chain. -/
theorem Blank.initChain_of_error {e : GenesisError} (h : a.Blank)
    (hd : Genesis.decode document = .ok g) (hl : Ledger.ofGenesis g = .error e) (chain : String) :
    a.initChain chain document = .error (.genesis e) := by
  have hr := leaves_start hd _ (Context.holds_new h.assembled h.stored ⟨chain, 0⟩ .initChain)
  rw [hl, ← h.phase] at hr
  exact initChain_eq_error hr

/-- A chain that has started has done so with an acceptable document. -/
theorem Blank.exists_of_initChain (h : a.Blank) {chain : String} {validators : List Validator}
    (hi : a.initChain chain document = .ok (validators, b)) :
    ∃ g l, Genesis.decode document = .ok g ∧ Ledger.ofGenesis g = .ok l ∧
      validators = g.staking.validators ∧ b.Holds l := by
  cases hd : Genesis.decode document with
  | error e =>
    have he : a.initChain chain document = .error (.genesis e) := by
      apply initChain_eq_error
      unfold Genesis.start Genesis.take
      rw [if_pos h.phase, hd]
      rfl
    rw [he] at hi
    cases hi
  | ok g =>
    cases hl : Ledger.ofGenesis g with
    | error e =>
      rw [h.initChain_of_error hd hl] at hi
      cases hi
    | ok l =>
      obtain ⟨b, hb, hh, -⟩ := h.initChain_of_ok hd hl chain
      rw [hb] at hi
      cases hi
      exact ⟨g, l, rfl, hl, rfl, hh⟩

theorem initChain_of_ok (hd : Genesis.decode document = .ok g) (hl : Ledger.ofGenesis g = .ok l)
    (chain : String) :
    ∃ b, (opened ∅ .initial).initChain chain document = .ok (g.staking.validators, b) ∧
      b.Holds l ∧ b.lastCommit = .initial := by
  obtain ⟨b, hb, hh, hs⟩ := blank_opened.initChain_of_ok hd hl chain
  exact ⟨b, hb, hh, hs.lastCommit_eq⟩

theorem initChain_of_error {e : GenesisError} (hd : Genesis.decode document = .ok g)
    (hl : Ledger.ofGenesis g = .error e) (chain : String) :
    (opened ∅ .initial).initChain chain document = .error (.genesis e) :=
  blank_opened.initChain_of_error hd hl chain

/-- Every acceptable document has runs. -/
theorem exists_run (hd : Genesis.decode document = .ok g) (hl : Ledger.ofGenesis g = .ok l) :
    ∃ a, Run g [] a ∧ a.Holds l ∧ a.lastCommit = .initial := by
  obtain ⟨b, hb, hh, hv⟩ := initChain_of_ok hd hl ""
  exact ⟨b, .start fresh_eq hd hb, hh, hv⟩

/-- A run that accepts one transaction. -/
theorem exists_run_accepting {n : Ledger} (hd : Genesis.decode document = .ok g)
    (hl : Ledger.ofGenesis g = .ok l) (ht : Transaction.decode .standard text = .ok t)
    (hn : l.execute .deliver t = .ok n) :
    ∃ a b, Run g [] a ∧ a.accepted (.deliver text) = some t ∧ a.perform (.deliver text) = .ok b ∧
      Run g [t] b := by
  obtain ⟨a, hr, ha, -⟩ := exists_run hd hl
  obtain ⟨b, hb, -, -⟩ := ha.deliver_of_ok ht hn
  have hacc : a.accepted (.deliver text) = some t := by
    rw [accepted_deliver hb, ht]
    rfl
  have hp : a.perform (.deliver text) = .ok b := by
    change (a.deliver text).map _ = _
    rw [hb]
    rfl
  have hs := Run.step hr (fun h => by cases h) hp
  rw [hacc] at hs
  exact ⟨a, b, hr, hacc, hp, hs⟩

end Start

/-- A run is ready for more: it holds the ledger that the accepted transactions lead to from the
ledger of the document. -/
theorem Run.holds {g : Genesis} {ts : List Transaction} (h : Run g ts a) :
    ∃ start l, Ledger.ofGenesis g = .ok start ∧
      ts.foldlM (fun l t => l.execute .deliver t) start = .ok l ∧ a.Holds l ∧ l.WellFormed := by
  induction h with
  | start hf hd hi =>
    rw [fresh_eq] at hf
    cases hf
    obtain ⟨g', l, hd', hl, -, hh⟩ := blank_opened.exists_of_initChain hi
    rw [hd'] at hd
    cases hd
    exact ⟨l, l, hl, rfl, hh, .of_genesis hl⟩
  | step _ hv hp ih =>
    obtain ⟨start, l, hs, hts, hh, hwf⟩ := ih
    obtain ⟨b, n, hb, hn, he⟩ := hh.perform hwf hv
    rw [hb] at hp
    cases hp
    refine ⟨start, n, hs, ?_, hn, foldlM_preserves (fun t _ l n hl he => hl.execute he) hwf he⟩
    rw [List.foldlM_append, hts]
    exact he

/-! A chain with one account, whose holder names the trend. -/

namespace Sample

def holder : Address := .ofPublicKey [7]

def genesis : Genesis where
  accounts := [⟨holder, .single "pow" 5⟩]
  mining := ⟨1, 0⟩
  trend := ⟨"icecold"⟩
  auth := .initial
  channels := .empty
  staking := .empty

def answer : Transaction where
  messages := [.quiz ⟨holder, "icecold"⟩]
  fee := ⟨.single "pow" 2, 0⟩
  signatures := [⟨"07", "aa", 0, 0⟩]
  memo := ""

def answerText : Bytes := (answer.encode .standard).toOption.getD []

theorem valid_genesis : genesis.Valid where
  fees := Coins.valid_empty
  accounts := by
    intro a ha
    rw [List.mem_singleton.mp ha]
    exact Coins.valid_single (by decide) 5
  packets := nofun

theorem valid_answer : answer.Valid where
  fee := Coins.valid_single (by decide) 2
  messages := List.forall_mem_singleton.mpr trivial

theorem decode_answerText : Transaction.decode .standard answerText = .ok answer :=
  Transaction.decode_encoded valid_answer

/-- What a document and a transaction lead to can be tried out. -/
theorem exists_execute {g : Genesis} {t : Transaction}
    (h : ((Ledger.ofGenesis g).toOption.bind fun l =>
      (l.execute .deliver t).toOption).isSome = true) :
    ∃ l n, Ledger.ofGenesis g = .ok l ∧ l.execute .deliver t = .ok n := by
  obtain ⟨n, h⟩ := Option.isSome_iff_exists.mp h
  obtain ⟨l, hl, hn⟩ := Option.bind_eq_some_iff.mp h
  exact ⟨l, n, toOption_eq_some.mp hl, toOption_eq_some.mp hn⟩

def encoded (t : Transaction) : Bytes := (t.encode .standard).toOption.getD []

theorem exists_run {g : Genesis} {t : Transaction} (hg : g.Valid) (ht : t.Valid)
    (h : ((Ledger.ofGenesis g).toOption.bind fun l =>
      (l.execute .deliver t).toOption).isSome = true) :
    ∃ a b, Run g [] a ∧ a.accepted (.deliver (encoded t)) = some t ∧
      a.perform (.deliver (encoded t)) = .ok b ∧ Run g [t] b := by
  obtain ⟨l, n, hl, hn⟩ := exists_execute h
  exact exists_run_accepting (Genesis.decode_document hg) hl (Transaction.decode_encoded ht) hn

theorem execute_answer :
    ∃ l n, Ledger.ofGenesis genesis = .ok l ∧ l.execute .deliver answer = .ok n :=
  exists_execute (by decide +kernel)

theorem run : ∃ a b, Run genesis [] a ∧ a.accepted (.deliver answerText) = some answer ∧
    a.perform (.deliver answerText) = .ok b ∧ Run genesis [answer] b := by
  obtain ⟨l, n, hl, hn⟩ := execute_answer
  exact exists_run_accepting (Genesis.decode_document valid_genesis) hl decode_answerText hn

end Sample
end App
end Appchain
