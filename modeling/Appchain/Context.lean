import Appchain.Store.MultiStore

/-!
# Contexts

A context runs operations over the stores of the current block and keeps what
they write to itself. An operation that fails has still written what it wrote
before it failed; it is the caller who keeps or drops a context's writes. The
`run_` lemmas say what the primitive operations answer and leave behind.
-/

namespace Appchain

/-- Why operations are run. -/
inductive Mode where
  | check
  | deliver
  | initChain
  | query
  deriving DecidableEq, Repr

def Mode.name : Mode → String
  | check => "Check"
  | deliver => "Deliver"
  | initChain => "InitChain"
  | query => "Query"

structure Header where
  chain : String
  height : UInt64
  deriving DecidableEq, Repr

structure Context where
  store : MultiStore
  writes : Writes
  header : Header
  mode : Mode

namespace Context

def new (store : MultiStore) (header : Header) (mode : Mode) : Context := ⟨store, ∅, header, mode⟩

/-- A store of the block under the writes of the context. -/
def view (c : Context) (key : StoreKey) : Except StoreError View := do
  let v ← c.store.view key
  return { v with writes := c.writes.of key.name }

def withView (c : Context) (key : StoreKey) (v : View) : Context :=
  { c with writes := c.writes.insert key.name v.writes }

/-- Whether anything has been written. -/
def isDirty (c : Context) : Bool := !c.writes.isEmpty

/-- The view that has been put into a context, if it is still a view of the same store. -/
theorem view_withView_self {c : Context} {key : StoreKey} {v w : View} (h : c.view key = .ok v)
    (ht : w.tree = v.tree) (hp : w.pending = v.pending) :
    (c.withView key w).view key = .ok w := by
  simp only [view, withView] at h ⊢
  cases hs : c.store.view key with
  | error e => simp [hs, bind, Except.bind] at h
  | ok u =>
    simp only [hs, bind, Except.bind, pure, Except.pure, Except.ok.injEq] at h ⊢
    subst h
    simp only [Writes.of, OrderedMap.get?_insert, ↓reduceIte, Option.getD_some]
    cases w
    simp_all

/-- Writing to one store leaves the views of the others as they were. -/
theorem view_withView_of_ne (c : Context) {key other : StoreKey} (v : View)
    (h : other.name ≠ key.name) : (c.withView key v).view other = c.view other := by
  simp only [view, withView, Writes.of, OrderedMap.get?_insert, h, ↓reduceIte]

end Context

/-- Operations in a context that may fail with an `ε`. -/
abbrev ExecWith (ε : Type) := ExceptT ε (StateM Context)

abbrev Exec := ExecWith TxError

namespace Exec

def lift {α : Type} (r : Except TxError α) : Exec α := ExceptT.mk (pure r)

def view (key : StoreKey) : Exec View := do
  lift (((← get).view key).mapError .store)

def mode : Exec Mode := return (← get).mode

/-- Changes a store through its view. -/
def change (key : StoreKey) (f : View → View) : Exec Unit := do
  let v ← view key
  modify fun c => c.withView key (f v)

def read (key : StoreKey) (k : Bytes) : Exec (Option Bytes) := do return (← view key).get k

def write (key : StoreKey) (k value : Bytes) : Exec Unit := change key fun v => v.set k value

def erase (key : StoreKey) (k : Bytes) : Exec Unit := change key fun v => v.delete k

def scan (key : StoreKey) (p : Bytes) : Exec (List (Bytes × Bytes)) := do
  return (← view key).scan p

/-- What an encoded value decodes to. -/
def decoded {α : Type} (r : Except Fault α) : Exec α := lift (r.mapError fun f => .codec (.decode f))

/-- The value under a key, if there is one. -/
def load {α : Type} (key : StoreKey) (l : Layout α) (k : Bytes) : Exec (Option α) := do
  match ← read key k with
  | some b => some <$> decoded (l.decode b)
  | none => return none

def save {α : Type} (key : StoreKey) (l : Layout α) (k : Bytes) (a : α) : Exec Unit :=
  write key k (l.write a)

theorem run_view (key : StoreKey) (c : Context) :
    (view key).run.run c = ((c.view key).mapError .store, c) := rfl

theorem run_change (key : StoreKey) (f : View → View) (c : Context) :
    (change key f).run.run c =
      match c.view key with
      | .ok v => (.ok (), c.withView key (f v))
      | .error e => (.error (.store e), c) := by
  simp only [change, ExceptT.run_bind, StateT.run_bind, run_view]
  cases c.view key <;> rfl

theorem run_read (key : StoreKey) (k : Bytes) (c : Context) :
    (read key k).run.run c = ((c.view key).map (·.get k) |>.mapError .store, c) := by
  simp only [read, ExceptT.run_bind, StateT.run_bind, run_view]
  cases c.view key <;> rfl

theorem run_scan (key : StoreKey) (p : Bytes) (c : Context) :
    (scan key p).run.run c = ((c.view key).map (·.scan p) |>.mapError .store, c) := by
  simp only [scan, ExceptT.run_bind, StateT.run_bind, run_view]
  cases c.view key <;> rfl

end Exec
end Appchain
