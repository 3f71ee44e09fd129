import Appchain.Proofs.LoadedStores
import Appchain.Proofs.OpenedContexts

/-!
# Stores as versioned maps

The layers of the stores amount to one plain map per store, beside the map that
was committed last. `Versioned` is the machine of these maps: contexts change the
maps only if they are written, a commit takes the maps over, and opening the
database again goes back to what was committed. The multistore answers every
sequence of events as this machine does.
-/

namespace Appchain

open StoreKey MultiStore Outcome

/-- One step after another, with all that is answered on the way. -/
def runAll {σ α β : Type} (step : σ → α → β × σ) : σ → List α → List β × σ
  | s, [] => ([], s)
  | s, a :: as =>
    let r := step s a
    let rest := runAll step r.2 as
    (r.1 :: rest.1, rest.2)

theorem runAll_append {σ α β : Type} (step : σ → α → β × σ) (s : σ) (as bs : List α) :
    runAll step s (as ++ bs) =
      ((runAll step s as).1 ++ (runAll step (runAll step s as).2 bs).1,
        (runAll step (runAll step s as).2 bs).2) := by
  induction as generalizing s with
  | nil => rfl
  | cons a as ih =>
    rw [List.cons_append, runAll, ih]
    rfl

/-- Steps that answer the same and stay related do so all along. -/
theorem runAll_simulates {σ τ α β : Type} {f : σ → α → β × σ} {g : τ → α → β × τ} {R : σ → τ → Prop}
    (step : ∀ {s t} a, R s t → (f s a).1 = (g t a).1 ∧ R (f s a).2 (g t a).2) {s : σ} {t : τ}
    (h : R s t) (as : List α) :
    (runAll f s as).1 = (runAll g t as).1 ∧ R (runAll f s as).2 (runAll g t as).2 := by
  induction as generalizing s t with
  | nil => exact ⟨rfl, h⟩
  | cons a as ih =>
    obtain ⟨ha, hr⟩ := step a h
    obtain ⟨has, hrs⟩ := ih hr
    exact ⟨by rw [runAll, runAll, ha, has], hrs⟩

/-- What is asked of a store. -/
inductive Request where
  | get (k : Bytes)
  | set (k value : Bytes)
  | delete (k : Bytes)
  | scan (p : Bytes)

inductive Answer where
  | value (v : Option Bytes)
  | entries (es : List (Bytes × Bytes))
  | done

namespace Request

/-- What a plain map answers. -/
def answer (t : Tree) : Request → Answer
  | get k => .value (t.get? k)
  | scan p => .entries (t.filterKeys fun k => p.isPrefixOf k).entries
  | _ => .done

/-- The plain map afterwards. -/
def apply (t : Tree) : Request → Tree
  | set k value => t.insert k value
  | delete k => t.erase k
  | _ => t

/-- The request as an operation on a store. -/
def exec (key : StoreKey) : Request → Exec Answer
  | get k => .value <$> Exec.read key k
  | set k value => (fun _ => .done) <$> Exec.write key k value
  | delete k => (fun _ => .done) <$> Exec.erase key k
  | scan p => .entries <$> Exec.scan key p

end Request

/-- A request to one of the stores. -/
structure Call where
  key : StoreKey
  request : Request

/-- An operation that fails is answered with its error; the next one may go on. -/
def Context.call (c : Context) (x : Call) : Except TxError Answer × Context :=
  (x.request.exec x.key).run.run c

/-- A plain map for every store. -/
abbrev Maps := StoreKey → Tree

def Maps.call (keys : List StoreKey) (m : Maps) (x : Call) : Except TxError Answer × Maps :=
  if x.key ∈ keys then
    (.ok (x.request.answer (m x.key)),
      fun key => if key = x.key then x.request.apply (m x.key) else m key)
  else (.error (.store (.notMounted x.key.name)), m)

def Maps.onlyPersistent (m : Maps) : Maps := fun key => if key.kind = .persistent then m key else ∅

/-- What happens to the stores. -/
inductive StoreEvent where
  /-- A context, the calls in it, and whether it is written in the end. -/
  | context (header : Header) (mode : Mode) (calls : List Call) (kept : Bool)
  | commit
  /-- The database is opened again. -/
  | reopen
  /-- The last commit and the present hash are asked for. -/
  | status

inductive Observation where
  | answers (as : List (Except TxError Answer))
  | info (last : CommitInfo)
  | status (last : CommitInfo) (hash : AppHash)

namespace MultiStore

def perform (keys : List StoreKey) (main : StoreKey) (s : MultiStore) :
    StoreEvent → Except AppError (Observation × MultiStore)
  | .context header mode calls kept =>
    let r := runAll Context.call (.new s header mode) calls
    if kept then do
      let t ← (s.write r.2.writes).mapError .store
      return (.answers r.1, t)
    else return (.answers r.1, s)
  | .commit => do
    let r ← s.commit.mapError .store
    return (.info r.1, r.2)
  | .reopen => do
    let r ← openOver s.database keys main
    return (.info r.1, r.2)
  | .status => do
    let hash ← s.appHash.mapError .store
    return (.status s.lastCommit hash, s)

def performAll (keys : List StoreKey) (main : StoreKey) :
    MultiStore → List StoreEvent → Except AppError (List Observation × MultiStore)
  | s, [] => return ([], s)
  | s, e :: es => do
    let r ← s.perform keys main e
    let rest ← r.2.performAll keys main es
    return (r.1 :: rest.1, rest.2)

end MultiStore

/-- The machine of plain maps. -/
structure Versioned where
  committed : Maps
  /-- The map of a persistent store as of the current block, and the map of a transient store. -/
  current : Maps
  version : Nat
  hash : AppHash

namespace Versioned

/-- The last commit. -/
def last (m : Versioned) : CommitInfo := ⟨.ofNat m.version, m.hash⟩

/-- The machine of a database. -/
def start (d : Database) (last : CommitInfo) : Versioned where
  committed := Maps.onlyPersistent fun key => d.tree key.name
  current := Maps.onlyPersistent fun key => d.tree key.name
  version := last.version.toNat
  hash := last.appHash

/-- The next version are the maps as of the current block, and transient maps start again. -/
def commit (keys : List StoreKey) (m : Versioned) : Versioned where
  committed := m.current.onlyPersistent
  current := m.current.onlyPersistent
  version := m.version + 1
  hash := .of (contentsInput keys m.current)

def step (keys : List StoreKey) (m : Versioned) : StoreEvent → Observation × Versioned
  | .context _ _ calls kept =>
    let r := runAll (Maps.call keys) m.current calls
    (.answers r.1, if kept then { m with current := r.2 } else m)
  | .commit => (.info (m.commit keys).last, m.commit keys)
  | .reopen => (.info m.last, { m with current := m.committed.onlyPersistent })
  | .status => (.status m.last (.of (contentsInput keys m.current)), m)

end Versioned

/-! What the parts do. -/

variable {keys : List StoreKey} {key main : StoreKey}

namespace Exec

theorem run_map {ε α β : Type} (f : α → β) (x : ExecWith ε α) (c : Context) :
    (f <$> x).run.run c = ((x.run.run c).1.map f, (x.run.run c).2) := by
  simp only [ExceptT.run_map, StateT.run_map]
  rfl

variable {c : Context}

/-- A store answers a request as its contents do. -/
theorem run_request (h : c.Sees keys) (hd : Declared keys) (hk : key ∈ keys) (r : Request) :
    ∃ d, (r.exec key).run.run c = (.ok (r.answer (c.contents key)), d) ∧
      c.Changed keys key (r.apply (c.contents key)) d := by
  have same : c.Changed keys key (c.contents key) c := ⟨rfl, rfl, h.within, rfl, fun _ _ => rfl⟩
  cases r with
  | get k =>
    refine ⟨c, ?_, same⟩
    rw [Request.exec, run_map, run_read_opened h hk]
    rfl
  | scan p =>
    refine ⟨c, ?_, same⟩
    rw [Request.exec, run_map, run_scan_opened h hk]
    rfl
  | set k value =>
    obtain ⟨d, hr, hc⟩ := run_change_opened h hd hk (f := fun v => v.set k value)
      (g := fun t => t.insert k value) (fun _ => rfl) (fun _ => rfl) fun v => v.contents_set k value
    refine ⟨d, ?_, hc⟩
    rw [Request.exec, run_map, write, hr]
    rfl
  | delete k =>
    obtain ⟨d, hr, hc⟩ := run_change_opened h hd hk (f := fun v => v.delete k)
      (g := fun t => t.erase k) (fun _ => rfl) (fun _ => rfl) fun v => v.contents_delete k
    refine ⟨d, ?_, hc⟩
    rw [Request.exec, run_map, erase, hr]
    rfl

theorem run_request_of_not_mem (h : c.Sees keys) (hk : key ∉ keys) (r : Request) :
    (r.exec key).run.run c = (.error (.store (.notMounted key.name)), c) := by
  have hv := h.view_of_not_mem hk
  cases r with
  | get k =>
    rw [Request.exec, run_map, run_read, hv]
    rfl
  | scan p =>
    rw [Request.exec, run_map, run_scan, hv]
    rfl
  | set k value =>
    rw [Request.exec, run_map, write, run_change, hv]
    rfl
  | delete k =>
    rw [Request.exec, run_map, erase, run_change, hv]
    rfl

end Exec

/-- The context shows the maps over the stores `s`. -/
structure Context.Shows (keys : List StoreKey) (s : MultiStore) (c : Context) (m : Maps) : Prop where
  sees : c.Sees keys
  store_eq : c.store = s
  contents_eq : ∀ key ∈ keys, c.contents key = m key

theorem Context.Shows.call {s : MultiStore} {c : Context} {m : Maps} (hd : Declared keys) (x : Call)
    (h : c.Shows keys s m) :
    (c.call x).1 = (m.call keys x).1 ∧ (c.call x).2.Shows keys s (m.call keys x).2 := by
  unfold Context.call Maps.call
  by_cases hk : x.key ∈ keys
  · rw [if_pos hk]
    obtain ⟨d, hr, hc⟩ := Exec.run_request h.sees hd hk x.request
    rw [hr, h.contents_eq x.key hk]
    refine ⟨rfl, hc.sees h.sees, hc.store_eq.trans h.store_eq, fun key hkey => ?_⟩
    dsimp only
    split
    · next he => rw [he, hc.here, h.contents_eq x.key hk]
    · next he => rw [hc.elsewhere hkey he, h.contents_eq key hkey]
  · rw [if_neg hk, Exec.run_request_of_not_mem h.sees hk]
    exact ⟨rfl, h⟩

namespace MultiStore

variable {s t : MultiStore} {d : Database} {last : CommitInfo} {m : Versioned}

theorem contentsInput_congr {f g : Maps}
    (h : ∀ key ∈ keys, key.kind = .persistent → f key = g key) :
    contentsInput keys f = contentsInput keys g := by
  unfold contentsInput
  rw [List.flatMap_def, List.flatMap_def]
  refine congrArg List.flatten (List.map_congr_left fun key hk => ?_)
  obtain ⟨hk, hp⟩ := mem_persistent.mp hk
  rw [h key hk hp]

theorem contentsInput_onlyPersistent (f : Maps) :
    contentsInput keys f.onlyPersistent = contentsInput keys f :=
  contentsInput_congr fun _ _ hp => if_pos hp

/-- The stores and the machine show the same. -/
structure Shows (keys : List StoreKey) (s : MultiStore) (m : Versioned) : Prop where
  opened : s.Opened keys
  committed : ∀ key ∈ keys, key.kind = .persistent → s.database.tree key.name = m.committed key
  current : ∀ key ∈ keys, s.contents key = m.current key
  last : s.lastCommit = m.last
  record : readCommit (s.database.tree metadataName) = .ok m.last

namespace Shows

theorem start (hr : readCommit (d.tree metadataName) = .ok last) :
    (loadedOn keys d last).Shows keys (.start d last) where
  opened := opened_loadedOn d last
  committed _ _ hp := (if_pos hp).symm
  current key _ := congrFun (contents_loadedOn d last) key
  last := by
    unfold Versioned.last Versioned.start
    rw [UInt64.ofNat_toNat]
    rfl
  record := by
    unfold Versioned.last Versioned.start
    rw [UInt64.ofNat_toNat]
    exact hr

/-- A context that is written leaves its maps to the block. -/
theorem write (hd : Declared keys) (h : s.Shows keys m) {c : Context} {f : Maps}
    (hc : c.Shows keys s f) :
    ∃ t, s.write c.writes = .ok t ∧ t.Shows keys { m with current := f } := by
  obtain ⟨t, ht, ho, hcon⟩ := h.opened.write hd hc.sees.within
  have hsame := sameCommit_write ht
  refine ⟨t, ht, ho, fun key hk hp => ?_, fun key hk => ?_, ?_, ?_⟩
  · rw [hsame.database_eq]
    exact h.committed key hk hp
  · have hcur := hc.contents_eq key hk
    unfold Context.contents at hcur
    rw [hc.store_eq] at hcur
    exact (hcon key hk).trans hcur
  · rw [hsame.lastCommit_eq]
    exact h.last
  · rw [hsame.database_eq]
    exact h.record

/-- A commit takes over what the block holds, and records its hash. -/
theorem commit (hd : Declared keys) (h : s.Shows keys m) :
    ∃ t, s.commit = .ok ((m.commit keys).last, t) ∧ t.Shows keys (m.commit keys) := by
  have hlast : (⟨s.lastCommit.version + 1, .of (contentsInput keys s.contents)⟩ : CommitInfo) =
      (m.commit keys).last := by
    unfold Versioned.commit Versioned.last
    rw [h.last, contentsInput_congr fun key hk _ => h.current key hk, UInt64.ofNat_add]
    rfl
  have hcommit := h.opened.commit
  rw [hlast] at hcommit
  refine ⟨_, hcommit, h.opened.afterCommit _, fun key hk hp => ?_, fun key hk => ?_, rfl,
    readCommit_afterCommit s _⟩
  · rw [s.tree_afterCommit _ (hd.reserved key hk) hp, h.current key hk]
    exact (if_pos hp).symm
  · rw [s.contents_afterCommit_of_ne _ (hd.reserved key hk), h.current key hk]
    rfl

/-- What has been committed is there when the database is opened again, and nothing else. -/
theorem reopen (hd : Declared keys) (hm : main ∈ keys) (h : s.Shows keys m) :
    ∃ t, openOver s.database keys main = .ok (m.last, t) ∧
      t.Shows keys { m with current := m.committed.onlyPersistent } := by
  refine ⟨_, openOver_eq hd hm h.record, opened_loadedOn _ _, h.committed, fun key hk => ?_, rfl,
    h.record⟩
  rw [contents_loadedOn]
  change (if key.kind = .persistent then s.database.tree key.name else ∅) =
    if key.kind = .persistent then m.committed key else ∅
  by_cases hp : key.kind = .persistent
  · rw [if_pos hp, if_pos hp]
    exact h.committed key hk hp
  · rw [if_neg hp, if_neg hp]

theorem appHash (h : s.Shows keys m) : s.appHash = .ok (.of (contentsInput keys m.current)) := by
  rw [h.opened.appHash, contentsInput_congr fun key hk _ => h.current key hk]

theorem perform (hd : Declared keys) (hm : main ∈ keys) (h : s.Shows keys m) (e : StoreEvent) :
    ∃ t, s.perform keys main e = .ok ((m.step keys e).1, t) ∧ t.Shows keys (m.step keys e).2 := by
  cases e with
  | context header mode calls kept =>
    have hnew : (Context.new s header mode).Shows keys s m.current :=
      ⟨Context.sees_new h.opened header mode, rfl, h.current⟩
    obtain ⟨ha, hc⟩ := runAll_simulates (g := Maps.call keys) (R := Context.Shows keys s)
      (fun x => Context.Shows.call hd x) hnew calls
    cases kept with
    | false =>
      refine ⟨s, ?_, h⟩
      exact congrArg (fun as => Except.ok (Observation.answers as, s)) ha
    | true =>
      obtain ⟨t, ht, hs⟩ := h.write hd hc
      refine ⟨t, ?_, hs⟩
      change (do
        let t ← (s.write (runAll Context.call (.new s header mode) calls).2.writes).mapError AppError.store
        return (Observation.answers (runAll Context.call (.new s header mode) calls).1, t)) = _
      rw [ht, ha]
      rfl
  | commit =>
    obtain ⟨t, ht, hs⟩ := h.commit hd
    refine ⟨t, ?_, hs⟩
    unfold MultiStore.perform
    rw [ht]
    rfl
  | reopen =>
    obtain ⟨t, ht, hs⟩ := h.reopen hd hm
    refine ⟨t, ?_, hs⟩
    unfold MultiStore.perform
    rw [ht]
    rfl
  | status =>
    refine ⟨s, ?_, h⟩
    unfold MultiStore.perform
    rw [h.appHash, h.last]
    rfl

theorem performAll (hd : Declared keys) (hm : main ∈ keys) (h : s.Shows keys m)
    (es : List StoreEvent) :
    ∃ t, s.performAll keys main es = .ok ((runAll (Versioned.step keys) m es).1, t) ∧
      t.Shows keys (runAll (Versioned.step keys) m es).2 := by
  induction es generalizing s m with
  | nil => exact ⟨s, rfl, h⟩
  | cons e es ih =>
    obtain ⟨u, hu, hsu⟩ := h.perform hd hm e
    obtain ⟨t, ht, hst⟩ := ih hsu
    refine ⟨t, ?_, hst⟩
    rw [MultiStore.performAll, hu]
    change (do let rest ← u.performAll keys main es; _) = _
    rw [ht]
    rfl

end Shows
end MultiStore

namespace Versioned

variable {m : Versioned}

/-- The recorded hash is the one of the committed contents. -/
def Recorded (keys : List StoreKey) (m : Versioned) : Prop :=
  m.hash = .of (contentsInput keys m.committed)

theorem recorded_commit (m : Versioned) : (m.commit keys).Recorded keys := by
  unfold Recorded commit
  rw [contentsInput_onlyPersistent]

theorem Recorded.step (h : m.Recorded keys) (e : StoreEvent) : (m.step keys e).2.Recorded keys := by
  cases e with
  | context header mode calls kept => cases kept <;> exact h
  | commit => exact m.recorded_commit
  | reopen => exact h
  | status => exact h

theorem Recorded.runAll (h : m.Recorded keys) (es : List StoreEvent) :
    (runAll (Versioned.step keys) m es).2.Recorded keys := by
  induction es generalizing m with
  | nil => exact h
  | cons e es ih => exact ih (h.step e)

/-- Once there has been a commit, the recorded hash is right. -/
theorem recorded_of_commit_mem (m : Versioned) {es : List StoreEvent} (h : .commit ∈ es) :
    (Appchain.runAll (Versioned.step keys) m es).2.Recorded keys := by
  induction es generalizing m with
  | nil => cases h
  | cons e es ih =>
    rcases List.mem_cons.mp h with rfl | h
    · exact m.recorded_commit.runAll es
    · exact ih _ h

end Versioned

namespace MultiStore

/-- Declared stores, mounted and loaded over any database whose last commit can be read, answer
every sequence of events as the machine of plain maps does. Once there has been a commit, the
database can be opened again at any time with this commit, and then the stores have its hash. -/
theorem openOver_refines {d : Database} {last : CommitInfo} (hd : Declared keys) (hm : main ∈ keys)
    (hr : readCommit (d.tree metadataName) = .ok last) (es : List StoreEvent) :
    ∃ s t, openOver d keys main = .ok (last, s) ∧
      s.performAll keys main es =
        .ok ((runAll (Versioned.step keys) (.start d last) es).1, t) ∧
      (.commit ∈ es → ∃ u, openOver t.database keys main = .ok (t.lastCommit, u) ∧
        u.appHash = .ok t.lastCommit.appHash) := by
  obtain ⟨t, ht, hs⟩ := (Shows.start hr).performAll hd hm es
  refine ⟨_, t, openOver_eq hd hm hr, ht, fun hc => ?_⟩
  obtain ⟨u, hu, hsu⟩ := hs.reopen hd hm
  have hrec : (runAll (Versioned.step keys) (.start d last) es).2.Recorded keys :=
    Versioned.recorded_of_commit_mem _ hc
  refine ⟨u, ?_, ?_⟩
  · rw [hs.last]
    exact hu
  · rw [hsu.appHash, contentsInput_onlyPersistent, hs.last]
    exact congrArg Except.ok hrec.symm

namespace Sample

def stores : List StoreKey := [.main, .changedParameters]

/-- A commit, and a context whose writes are lost. -/
def events : List StoreEvent :=
  [.context ⟨"chain", 1⟩ .deliver
      [⟨.main, .set [1] [2]⟩, ⟨.changedParameters, .set [3] [4]⟩, ⟨.work, .get [1]⟩] true,
    .commit,
    .context ⟨"chain", 2⟩ .deliver [⟨.main, .delete [1]⟩, ⟨.main, .get [1]⟩] true,
    .reopen,
    .context ⟨"chain", 2⟩ .query [⟨.main, .scan []⟩, ⟨.changedParameters, .get [3]⟩] false]

end Sample

/-- What has been committed is there after the database is opened again, and nothing else. -/
theorem openOver_refines_events :
    ∃ s t last, openOver ∅ Sample.stores .main = .ok (.initial, s) ∧
      s.performAll Sample.stores .main Sample.events =
        .ok ([.answers [.ok .done, .ok .done, .error (.store (.notMounted "pow"))],
          .info last, .answers [.ok .done, .ok (.value none)], .info last,
          .answers [.ok (.entries [([1], [2])]), .ok (.value none)]], t) ∧
      last.version = 1 ∧
      ∃ u, openOver t.database Sample.stores .main = .ok (t.lastCommit, u) ∧
        u.appHash = .ok t.lastCommit.appHash := by
  have hregistry : Sample.stores.foldlM StoreRegistry.declare .empty = .ok ⟨Sample.stores, false⟩ :=
    rfl
  have hd : Declared Sample.stores :=
    declared_of_registry hregistry (List.Subset.refl _) (by decide)
  have hr : readCommit (Database.tree ∅ metadataName) = .ok .initial := rfl
  obtain ⟨s, t, hs, ht, hu⟩ := openOver_refines hd (.head _) hr Sample.events
  exact ⟨s, t, _, hs, ht, rfl, hu (.tail _ (.head _))⟩

end MultiStore
end Appchain
