import Appchain.Bytes

/-!
# BLAKE3

The unkeyed hash with a 32-byte output. Input is cut into chunks of 1024 bytes;
each chunk chains its blocks of 64 bytes through the compression function, and
the chunks are the leaves of a binary tree whose left subtrees are the largest
complete ones. A `Node` is a compression that has not been run yet, because the
root of the tree is run with a flag of its own.
-/

namespace Appchain.Blake3

abbrev ChainingValue := Vector UInt32 8

abbrev Block := Vector UInt32 16

def initialValue : ChainingValue :=
  #v[0x6a09e667, 0xbb67ae85, 0x3c6ef372, 0xa54ff53a, 0x510e527f, 0x9b05688c, 0x1f83d9ab, 0x5be0cd19]

def chunkStart : UInt32 := 1
def chunkEnd : UInt32 := 2
def parentFlag : UInt32 := 4
def rootFlag : UInt32 := 8

def rotateRight (x n : UInt32) : UInt32 := (x >>> n) ||| (x <<< (32 - n))

/-- Mixes two message words into a column or a diagonal of the state. -/
def mix (s : Block) (a b c d : Fin 16) (x y : UInt32) : Block :=
  let s := s.set a (s[a] + s[b] + x)
  let s := s.set d (rotateRight (s[d] ^^^ s[a]) 16)
  let s := s.set c (s[c] + s[d])
  let s := s.set b (rotateRight (s[b] ^^^ s[c]) 12)
  let s := s.set a (s[a] + s[b] + y)
  let s := s.set d (rotateRight (s[d] ^^^ s[a]) 8)
  let s := s.set c (s[c] + s[d])
  s.set b (rotateRight (s[b] ^^^ s[c]) 7)

def round (s m : Block) : Block :=
  let s := mix s 0 4 8 12 m[0] m[1]
  let s := mix s 1 5 9 13 m[2] m[3]
  let s := mix s 2 6 10 14 m[4] m[5]
  let s := mix s 3 7 11 15 m[6] m[7]
  let s := mix s 0 5 10 15 m[8] m[9]
  let s := mix s 1 6 11 12 m[10] m[11]
  let s := mix s 2 7 8 13 m[12] m[13]
  mix s 3 4 9 14 m[14] m[15]

/-- The order in which the next round takes the message words. -/
def permute (m : Block) : Block :=
  #v[m[2], m[6], m[3], m[10], m[7], m[0], m[4], m[13], m[1], m[11], m[12], m[5], m[9], m[14],
    m[15], m[8]]

def rounds : Nat → Block → Block → Block
  | 0, s, _ => s
  | n + 1, s, m => rounds n (round s m) (permute m)

/-- The first half of the compression function's output. -/
def compress (h : ChainingValue) (m : Block) (counter : UInt64) (length flags : UInt32) :
    ChainingValue :=
  let s := rounds 7
    #v[h[0], h[1], h[2], h[3], h[4], h[5], h[6], h[7],
      initialValue[0], initialValue[1], initialValue[2], initialValue[3],
      counter.toUInt32, (counter >>> 32).toUInt32, length, flags] m
  #v[s[0] ^^^ s[8], s[1] ^^^ s[9], s[2] ^^^ s[10], s[3] ^^^ s[11],
    s[4] ^^^ s[12], s[5] ^^^ s[13], s[6] ^^^ s[14], s[7] ^^^ s[15]]

/-- A compression that waits for its last flag. -/
structure Node where
  input : ChainingValue
  block : Block
  counter : UInt64
  length : UInt32
  flags : UInt32

namespace Node

def chainingValue (n : Node) : ChainingValue :=
  compress n.input n.block n.counter n.length n.flags

def digest (n : Node) : Bytes :=
  (compress n.input n.block n.counter n.length (n.flags ||| rootFlag)).toList.flatMap
    fun w => Bytes.littleEndian 4 w.toNat

end Node

/-- Up to 64 bytes as little-endian words, filled up with zeros. -/
def blockOf (b : Bytes) : Block :=
  Vector.ofFn fun i =>
    UInt32.ofNat (Bytes.littleEndianValue ((b.drop (4 * i.val)).take 4))

/-- The last block of a chunk is left as a node; the blocks before it are chained. -/
def chunkFrom (h : ChainingValue) (counter : UInt64) (flags : UInt32) (b : Bytes) : Node :=
  if b.length ≤ 64 then
    ⟨h, blockOf b, counter, UInt32.ofNat b.length, flags ||| chunkEnd⟩
  else
    chunkFrom (compress h (blockOf (b.take 64)) counter 64 flags) counter 0 (b.drop 64)
termination_by b.length
decreasing_by
  simp only [List.length_drop]
  omega

def chunk (counter : UInt64) (b : Bytes) : Node :=
  chunkFrom initialValue counter chunkStart b

def parent (l r : ChainingValue) : Node :=
  ⟨initialValue, l ++ r, 0, 64, parentFlag⟩

/-- The tree over `n + 1` chunks that starts at chunk `counter`. -/
def tree (counter : Nat) (b : Bytes) (n : Nat) : Node :=
  if h : n = 0 then chunk (UInt64.ofNat counter) b
  else
    let left := Nat.pow 2 n.log2
    have : left ≤ n := Nat.log2_self_le h
    have : 0 < left := Nat.two_pow_pos _
    parent (tree counter (b.take (1024 * left)) (left - 1)).chainingValue
      (tree (counter + left) (b.drop (1024 * left)) (n - left)).chainingValue
termination_by n
decreasing_by all_goals omega

/-- The digest, 32 bytes. -/
def hash (b : Bytes) : Bytes := (tree 0 b ((b.length - 1) / 1024)).digest

@[simp] theorem length_hash (b : Bytes) : (hash b).length = 32 := by
  simp [hash, Node.digest, List.length_flatMap, List.map_const']

end Appchain.Blake3
