import Appchain.Module.Bank

/-!
# The trend

The main store holds one word, the trend. Anyone may replace it, and whoever
guesses it is paid in coins that are named after the answer.
-/

namespace Appchain.Trend

def key : Bytes := Bytes.ofString "TrendKey"

/-- The number of coins paid for a right answer. -/
def reward : UInt64 := 69

/-- The trend, empty when none has been set. -/
def current : Exec String := do
  match Bytes.toString? ((← Exec.read .main key).getD []) with
  | some trend => return trend
  | none => throw (.internal .corruptTrend)

def set (trend : String) : Exec Unit := Exec.write .main key (Bytes.ofString trend)

def isTrend (guess : String) : Exec Bool := return (← current) = guess

def pay (guesser : Address) (answer : String) : Exec Unit := do
  let bonus ← Exec.lift
    ((Coins.ofList [⟨answer, reward⟩]).mapError fun f => .invalidCoins (.notCoins f))
  let _ ← Bank.add guesser bonus

/-- Nothing is paid when a transaction is only checked. -/
def answer (m : Quiz) : Exec Unit := do
  if ← isTrend m.answer then
    if (← Exec.mode) = .check then return () else pay m.sender m.answer
  else throw (.invalidMessage .wrongAnswer)

def handle : Message → Exec Unit
  | .setTrend m => set m.trend
  | .quiz m => answer m
  | m => throw (.unknownRequest "cool" m.tag)

end Appchain.Trend
