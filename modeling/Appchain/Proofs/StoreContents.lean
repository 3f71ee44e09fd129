import Appchain.App
import Appchain.Proofs.LoadedStores

/-!
# Contents of the application's stores

The application opens a fixed list of stores, with different names, of which the
marks of changed parameters are the only transient one. What holds of opened
stores in general is said here of these.
-/

namespace Appchain

namespace StoreKey

theorem declared_application : Declared application where
  distinct := by decide
  reserved := by decide

theorem eq_changedParameters {key : StoreKey} (h : key ∈ application)
    (ht : key.kind = .transient) : key = changedParameters := by
  revert key
  decide

/-- The names of the persistent stores. -/
def persistentNames : List String := (application.filter fun k => !k.isTransient).map (·.name)

end StoreKey

open StoreKey

namespace MultiStore

variable {s t : MultiStore} {key : StoreKey}

/-- The application's stores are mounted and open, and no others. -/
structure Assembled (s : MultiStore) : Prop where
  mounted : s.mounted = application
  opened : s.opened = persistentNames
  transient : ∀ name, s.transient.contains name = true ↔ name = changedParameters.name

theorem assembled_iff : s.Assembled ↔ s.Opened application := by
  have marks (name : String) :
      (⟨name, .transient⟩ : StoreKey) ∈ application ↔ name = changedParameters.name := by
    constructor
    · intro h
      exact congrArg StoreKey.name (eq_changedParameters h rfl)
    · rintro rfl
      decide
  constructor
  · intro h
    exact ⟨h.mounted, h.opened, fun name => (h.transient name).trans (marks name).symm⟩
  · intro h
    exact ⟨h.mounted, h.opened, fun name => (h.transient name).trans (marks name)⟩

/-- Whether only the application's stores are written to. -/
def Fits (w : Writes) : Prop := ∀ name, w.contains name = true → ∃ key ∈ application, key.name = name

/-- Writes that fit are taken into the block. -/
theorem Assembled.write (h : s.Assembled) {w : Writes} (hw : Fits w) :
    ∃ t, s.write w = .ok t ∧ t.Assembled ∧
      ∀ key ∈ application, t.contents key = (s.contents key).override (w.of key.name) := by
  obtain ⟨t, ht, ho, hc⟩ := (assembled_iff.mp h).write declared_application hw
  exact ⟨t, ht, assembled_iff.mpr ho, hc⟩

theorem Assembled.afterCommit (h : s.Assembled) (info : CommitInfo) :
    (s.afterCommit info).Assembled :=
  assembled_iff.mpr ((assembled_iff.mp h).afterCommit info)

/-- A commit keeps the contents of the persistent stores. -/
theorem contents_afterCommit (s : MultiStore) (info : CommitInfo) (hk : key ∈ application) :
    (s.afterCommit info).contents key =
      if key.kind = .persistent then s.contents key else ∅ :=
  s.contents_afterCommit_of_ne info (declared_application.reserved key hk)

theorem Assembled.commit (h : s.Assembled) :
    ∃ info, s.commit = .ok (info, s.afterCommit info) ∧
      info.version = s.lastCommit.version + 1 ∧
      info.appHash = .of (contentsInput application s.contents) :=
  ⟨_, (assembled_iff.mp h).commit, rfl, rfl⟩

/-- A database that has just been opened. -/
def openedOn (d : Database) (last : CommitInfo) : MultiStore where
  database := d
  mounted := application
  opened := persistentNames
  transient := OrderedMap.insert ∅ changedParameters.name ∅
  pending := ∅
  lastCommit := last
  isSealed := true

theorem assembled_openedOn (d : Database) (last : CommitInfo) : (openedOn d last).Assembled :=
  assembled_iff.mpr (opened_loadedOn d last).close

end MultiStore

open MultiStore

/-- The application over a database with its last commit. -/
def App.opened (d : Database) (last : CommitInfo) : App where
  store := openedOn d last
  screen := Admission.screen
  phase := if 0 < last.version then .ready else .uninitialized
  chain := ""
  header := none

/-- Opening a database whose record of the last commit can be read. -/
theorem App.assemble_ofDatabase {d : Database} {last : CommitInfo}
    (h : readCommit (d.tree metadataName) = .ok last) :
    App.assemble (.ofDatabase d) = .ok (.opened d last) := by
  have hmain : StoreKey.main ∈ application := by decide
  unfold assemble
  rw [mount_eq d declared_application]
  simp only [Outcome.mapError_ok, bind, Except.bind]
  rw [load_eq hmain h]
  rfl

end Appchain
