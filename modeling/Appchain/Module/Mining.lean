import Appchain.Module.Bank

/-!
# Mining

The store holds the difficulty and the count of the last work. The next work has
to be one beyond both, and is paid for.
-/

namespace Appchain.Mining

structure State where
  difficulty : UInt64
  count : UInt64
  deriving DecidableEq, Repr

open Fields (field) in
def State.wire : Wire State :=
  (field "difficulty" .word ++ field "count" .word).record
    (fun (difficulty, count) => ⟨difficulty, count⟩) fun s => (s.difficulty, s.count)

/-- What is paid for work. -/
def reward : Coin := ⟨"pow", 1⟩

def difficultyName : String := "lastDifficultyKey"

def countName : String := "lastCountKey"

def read (name : String) : Exec UInt64 := do
  match ← Exec.load .work .word (Bytes.ofString name) with
  | some n => return n
  | none => throw (.internal (.missing name))

def write (name : String) (n : UInt64) : Exec Unit := Exec.save .work .word (Bytes.ofString name) n

def difficulty : Exec UInt64 := read difficultyName

def setDifficulty (n : UInt64) : Exec Unit := write difficultyName n

def count : Exec UInt64 := read countName

def setCount (n : UInt64) : Exec Unit := write countName n

/-- Checks that difficulty and count are the next ones and returns them. -/
def checkNext (claimed : State) : Exec State := do
  let next : State := ⟨Word.succ (← difficulty), Word.succ (← count)⟩
  if claimed.count ≠ next.count then
    throw (.invalidMessage (.wrongCount next.count claimed.count))
  else if claimed.difficulty ≠ next.difficulty then
    throw (.invalidMessage (.wrongDifficulty next.difficulty claimed.difficulty))
  else return next

/-- Pays for work and records it. -/
def apply (reward : Coin) (miner : Address) (s : State) : Exec Unit := do
  let paid ← Exec.lift ((Coins.ofList [reward]).mapError fun f => .invalidCoins (.notCoins f))
  let _ ← Bank.add miner paid
  setDifficulty s.difficulty
  setCount s.count

def handle : Message → Exec Unit
  | .mine m => do apply reward m.sender (← checkNext ⟨m.difficulty, m.count⟩)
  | m => throw (.unknownRequest "pow" m.tag)

end Appchain.Mining
