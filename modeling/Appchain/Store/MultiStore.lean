import Appchain.Commit
import Appchain.Store.Key
import Appchain.Store.View

/-!
# The multistore

The database holds a tree for every persistent store and one for the record of
the last commit. The writes of a block are pending until `commit` applies them
to the trees together with the new record. Mounting only registers a store;
loading opens every mounted store, after which it can be read and written.
-/

namespace Appchain

abbrev Database := OrderedMap String Tree

namespace Database

/-- The tree of that name; a tree nobody wrote to is empty. -/
def tree (d : Database) (name : String) : Tree := (d.get? name).getD ∅

end Database

/-- The writes of a context or a block, by store. -/
abbrev Writes := OrderedMap String WriteSet

namespace Writes

def of (w : Writes) (store : String) : WriteSet := (w.get? store).getD ∅

def isEmpty (w : Writes) : Bool := w.entries.all fun e => OrderedMap.isEmpty e.2

end Writes

structure MultiStore where
  database : Database
  mounted : List StoreKey
  /-- The names of the persistent stores that have been opened. -/
  opened : List String
  /-- The contents of the transient stores that have been opened. -/
  transient : Database
  /-- The writes to persistent stores since the last commit. -/
  pending : Writes
  lastCommit : CommitInfo
  isSealed : Bool

namespace MultiStore

def versionKey : Bytes := Bytes.ofString "latest_version"

def appHashKey : Bytes := Bytes.ofString "latest_app_hash"

def ofDatabase (d : Database) : MultiStore where
  database := d
  mounted := []
  opened := []
  transient := ∅
  pending := ∅
  lastCommit := .initial
  isSealed := false

def isMounted (s : MultiStore) (key : StoreKey) : Bool := s.mounted.any (·.name = key.name)

def isOpened (s : MultiStore) (name : String) : Bool :=
  name ∈ s.opened || s.transient.contains name

/-- Whether the stores may be mounted: none is mounted already, and none stands in the list twice. -/
def checkMounts (s : MultiStore) (before : List StoreKey) : List StoreKey → Except ConfigError Unit
  | [] => .ok ()
  | key :: keys =>
    if before.any (·.name = key.name) || s.isMounted key then .error (.duplicateMount key.name)
    else s.checkMounts (before ++ [key]) keys

def push (key : StoreKey) : Registration MultiStore Unit :=
  modify fun s => { s with mounted := s.mounted ++ [key] }

/-- Mounts the stores one after another, once all of them have been checked. -/
def register (keys : List StoreKey) : Registration MultiStore Unit := do
  let s ← get
  if s.isSealed then throw (.isSealed .multiStore)
  else
    match s.checkMounts [] keys with
    | .error e => throw e
    | .ok () => keys.forM push

theorem push_answer (keys : List StoreKey) (s : MultiStore) :
    (keys.forM push : Registration MultiStore Unit).answer s =
      (.ok (), { s with mounted := s.mounted ++ keys }) := by
  induction keys generalizing s with
  | nil =>
    rw [List.append_nil]
    rfl
  | cons key keys ih =>
    rw [List.append_cons]
    exact ih { s with mounted := s.mounted ++ [key] }

theorem register_answer (keys : List StoreKey) (s : MultiStore) :
    (register keys).answer s =
      if s.isSealed then (.error (.isSealed .multiStore), s)
      else
        match s.checkMounts [] keys with
        | .error e => (.error e, s)
        | .ok () => (.ok (), { s with mounted := s.mounted ++ keys }) := by
  change (if s.isSealed then _ else _ : Registration MultiStore Unit).answer s = _
  split
  · rfl
  · cases s.checkMounts [] keys with
    | error e => rfl
    | ok _ => exact push_answer keys s

/-- Mounts all of the stores or none. -/
def mount (s : MultiStore) (keys : List StoreKey) : Except ConfigError MultiStore :=
  (register keys).granted s

def close (s : MultiStore) : MultiStore := { s with isSealed := true }

/-- The record of the last commit. -/
def readCommit (metadata : Tree) : Except StoreError CommitInfo :=
  match metadata.get? versionKey with
  | none => .ok .initial
  | some version =>
    if version.length = 8 then
      match metadata.get? appHashKey with
      | none => .error (.corrupted .noAppHash)
      | some hash =>
        match AppHash.ofBytes? hash with
        | none => .error (.corrupted .appHashBytes)
        | some hash => .ok ⟨UInt64.ofNat (Bytes.bigEndianValue version), hash⟩
    else .error (.corrupted .versionBytes)

/-- Opens every mounted store. Transient ones start empty. -/
def openAll (s : MultiStore) : MultiStore :=
  let (transient, persistent) := s.mounted.partition (·.isTransient)
  { s with
    opened := persistent.map (·.name)
    transient := transient.foldl (fun m k => m.insert k.name ∅) s.transient }

/-- Opens every mounted store and restores the last commit. The stores stay open when the
record of the last commit cannot be read. -/
def load (s : MultiStore) (main : StoreKey) : Except StoreError CommitInfo × MultiStore :=
  if s.isMounted main then
    let s := s.openAll
    match readCommit (s.database.tree metadataName) with
    | .ok commit => (.ok commit, { s with lastCommit := commit })
    | .error e => (.error e, s)
  else (.error (.notMounted main.name), s)

/-- A store as of the current block. -/
def view (s : MultiStore) (key : StoreKey) : Except StoreError View :=
  match key.kind with
  | .persistent =>
    if key.name ∈ s.opened then .ok ⟨s.database.tree key.name, s.pending.of key.name, ∅⟩
    else .error (.notMounted key.name)
  | .transient =>
    match s.transient.get? key.name with
    | some tree => .ok ⟨tree, ∅, ∅⟩
    | none => .error (.notMounted key.name)

/-- Takes the writes to one opened store into the block. -/
def writeOne (s : MultiStore) (store : String) (w : WriteSet) : MultiStore :=
  if w.isEmpty then s
  else if store ∈ s.opened then
    { s with pending := s.pending.insert store ((s.pending.of store).union w) }
  else
    { s with transient := s.transient.insert store ((s.transient.tree store).override w) }

/-- Takes the writes into the block, all of them or none. -/
def write (s : MultiStore) (w : Writes) : Except StoreError MultiStore :=
  match w.keys.find? fun name => !s.isOpened name with
  | some name => .error (.notMounted name)
  | none => .ok (w.entries.foldl (fun s e => s.writeOne e.1 e.2) s)

def hasPending (s : MultiStore) : Bool := !s.pending.isEmpty

/-- A byte string after its length in eight bytes. -/
def measured (b : Bytes) : Bytes := Bytes.ofUInt64BE (UInt64.ofNat b.length) ++ b

def storeInput (name : String) (es : List (Bytes × Bytes)) : Bytes :=
  measured (Bytes.ofString name) ++ es.flatMap fun e => measured e.1 ++ measured e.2

/-- What is hashed of one store. -/
def inputOf (s : MultiStore) (key : StoreKey) : Except StoreError Bytes := do
  let view ← s.view key
  return storeInput key.name (view.scan [])

/-- What is hashed: the persistent stores in mount order as of the current block. -/
def hashInput (s : MultiStore) : Except StoreError Bytes := do
  let stores ← (s.mounted.filter fun k => !k.isTransient).mapM s.inputOf
  return stores.flatten

def appHash (s : MultiStore) : Except StoreError AppHash := AppHash.of <$> s.hashInput

def writeCommit (metadata : Tree) (c : CommitInfo) : Tree :=
  (metadata.insert versionKey (Bytes.ofUInt64BE c.version)).insert appHashKey c.appHash.bytes

/-- The trees after the pending writes and the record of the commit. -/
def committed (s : MultiStore) (c : CommitInfo) : Database :=
  let trees := s.pending.entries.foldl (fun d e => d.insert e.1 ((d.tree e.1).override e.2)) s.database
  trees.insert metadataName (writeCommit (trees.tree metadataName) c)

/-- Makes the current contents the next version and empties the transient stores. -/
def commit (s : MultiStore) : Except StoreError (CommitInfo × MultiStore) := do
  let commit := ⟨s.lastCommit.version + 1, ← s.appHash⟩
  return (commit,
    { s with
      database := s.committed commit
      transient := s.transient.keys.foldl (fun m name => m.insert name ∅) ∅
      pending := ∅
      lastCommit := commit })

end MultiStore
end Appchain
