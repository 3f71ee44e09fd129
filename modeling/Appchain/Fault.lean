import Appchain.Coins
import Appchain.Address

/-!
# Decoding faults

What can be wrong with encoded data, in either format. Everything that is not
about a named member, a coin set or an address is `malformed`.
-/

namespace Appchain

inductive Fault where
  | malformed
  | missingField (name : String)
  | duplicateField (name : String)
  | unknownField (name : String) (expected : List String)
  | invalidCoins (fault : Coins.Fault)
  | invalidAddress (fault : Address.Fault)
  deriving DecidableEq

namespace Fault

def quote (name : String) : String := "\x60" ++ name ++ "\x60"

def message : Fault → String
  | malformed => "malformed"
  | missingField n => "missing field " ++ quote n
  | duplicateField n => "duplicate field " ++ quote n
  | unknownField n expected =>
    "unknown field " ++ quote n ++ ", expected one of " ++ ", ".intercalate (expected.map quote)
  | invalidCoins f => "invalid coins: " ++ f.message
  | invalidAddress f => "invalid address: " ++ f.message

end Fault
end Appchain
