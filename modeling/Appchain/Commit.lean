import Appchain.Wire
import Appchain.Digest.Blake3

/-!
# Commits

A commit numbers a version of the stores and fixes its contents by a digest of
thirty-two bytes. Before the first commit the version is zero, and so is every
byte of the digest.
-/

namespace Appchain

open Fields (field)

structure AppHash where
  bytes : Bytes
  length_bytes : bytes.length = 32
  deriving DecidableEq

namespace AppHash

def ofBytes? (b : Bytes) : Option AppHash :=
  if h : b.length = 32 then some ⟨b, h⟩ else none

def zero : AppHash := ⟨List.replicate 32 0, by simp⟩

/-- The hash of the given bytes. -/
def of (input : Bytes) : AppHash := ⟨Blake3.hash input, by simp⟩

def hex (h : AppHash) : String := Hex.encode h.bytes

def check (b : Bytes) : Except Fault AppHash :=
  match ofBytes? b with
  | some h => .ok h
  | none => .error .malformed

/-- A byte as a JSON number. -/
def byteShape : Json.Shape UInt8 :=
  Json.Shape.word.refine (fun b => UInt64.ofNat b.toNat) fun n =>
    if n < 256 then .ok (UInt8.ofNat n.toNat) else .error .malformed

/-- As JSON a list of numbers; as bytes without a length. -/
def wire : Wire AppHash :=
  ⟨byteShape.list.refine AppHash.bytes check, (Layout.fixed 32).refine AppHash.bytes check⟩

theorem ofBytes?_bytes (h : AppHash) : ofBytes? h.bytes = some h := by
  simp [ofBytes?, h.length_bytes]

end AppHash

structure CommitInfo where
  version : UInt64
  appHash : AppHash
  deriving DecidableEq

namespace CommitInfo

def initial : CommitInfo := ⟨0, .zero⟩

def wire : Wire CommitInfo :=
  (field "version" .word ++ field "app_hash" AppHash.wire).record
    (fun (version, appHash) => ⟨version, appHash⟩) fun c => (c.version, c.appHash)

end CommitInfo
end Appchain
