import Appchain.Hex
import Appchain.Digest.Sha256

/-!
# Addresses

An address is twenty bytes, for a key holder the first twenty of the SHA-256
digest of the public key. It is written as forty hexadecimal digits, from which
it is read back (`parse_hex`); stores file by the raw bytes.
-/

namespace Appchain

structure Address where
  bytes : Bytes
  length_bytes : bytes.length = 20
  deriving DecidableEq

namespace Address

/-- Why a text, a byte string or a party of a message names no address. -/
inductive Fault where
  | length (actual : Nat)
  | notHex (text : String) (fault : Hex.Fault)
  | empty (party : String)
  deriving DecidableEq, Repr

def Fault.message : Fault → String
  | length n => "expected 20 bytes, got " ++ toString n
  | notHex text f => text ++ ": " ++ f.message
  | empty party => "empty " ++ party

def ofBytes (b : Bytes) : Except Fault Address :=
  if h : b.length = 20 then .ok ⟨b, h⟩ else .error (.length b.length)

def ofPublicKey (key : Bytes) : Address := ⟨(Sha256.hash key).take 20, by simp⟩

def parse (text : String) : Except Fault Address :=
  match Hex.decode text with
  | .ok b => ofBytes b
  | .error f => .error (.notHex text f)

def hex (a : Address) : String := Hex.encode a.bytes

instance : ToString Address := ⟨hex⟩

/-- The address of twenty zero bytes, which no message may name as a party. -/
def zero : Address := ⟨List.replicate 20 0, by simp⟩

instance : Inhabited Address := ⟨zero⟩

def isEmpty (a : Address) : Bool := a = zero

theorem ofBytes_bytes (a : Address) : ofBytes a.bytes = .ok a := by
  simp [ofBytes, a.length_bytes]

@[simp] theorem parse_hex (a : Address) : parse a.hex = .ok a := by
  simp [parse, hex, ofBytes_bytes]

theorem length_ofString_hex (a : Address) : (Bytes.ofString a.hex).length = 40 := by
  rw [hex, Hex.encode, Bytes.ofString_ofList_ascii (Hex.digits_lt _), Hex.length_digits,
    a.length_bytes]

theorem hex_injective {a b : Address} (h : a.hex = b.hex) : a = b :=
  Except.ok.inj (by rw [← parse_hex a, h, parse_hex])

end Address
end Appchain
