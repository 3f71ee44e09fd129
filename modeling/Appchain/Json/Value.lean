import Appchain.Json.Doc
import Appchain.Json.Text
import Appchain.Json.Number
import Appchain.OrderedMap

/-!
# JSON values

A value is a tree whose objects list their members in the order in which they
are printed. It is printed compactly, or indented by two blanks a level, and it
can be taken as a document that has been read (`toDoc`), so that data can be
decoded from a value as well as from a text. Punctuation is given by ASCII codes,
as it is where texts are cut into tokens.
-/

namespace Appchain

/-- A JSON value. Numbers that are not words keep their literal. -/
inductive Json where
  | null
  | bool (value : Bool)
  | word (value : UInt64)
  | literal (number : Bytes)
  | text (value : String)
  | array (items : List Json)
  | object (members : List (String × Json))
  deriving Inhabited

namespace Json

mutual

def toDoc : Json → Doc
  | .null => .null
  | .bool b => .bool b
  | .word n => .number (decimal n.toNat)
  | .literal l => .number l
  | .text s => .text (raw s)
  | .array items => .array (itemDocs items) true
  | .object members => .object (memberDocs members) true

def itemDocs : List Json → List Doc
  | [] => []
  | v :: vs => v.toDoc :: itemDocs vs

def memberDocs : List (String × Json) → List (Bytes × Doc)
  | [] => []
  | (k, v) :: ms => (raw k, v.toDoc) :: memberDocs ms

end

def quoted (s : String) : Bytes := 34 :: raw s ++ [34]

def lineBreak (level : Nat) : Bytes := 10 :: List.replicate (2 * level) 32

mutual

/-- Without blanks. The first three cases spell `null`, `true` and `false`. -/
def compact : Json → Bytes
  | .null => [110, 117, 108, 108]
  | .bool true => [116, 114, 117, 101]
  | .bool false => [102, 97, 108, 115, 101]
  | .word n => decimal n.toNat
  | .literal l => l
  | .text s => quoted s
  | .array items => 91 :: compactItems items ++ [93]
  | .object members => 123 :: compactMembers members ++ [125]

def compactItems : List Json → Bytes
  | [] => []
  | [v] => v.compact
  | v :: vs => v.compact ++ 44 :: compactItems vs

def compactMembers : List (String × Json) → Bytes
  | [] => []
  | [(k, v)] => quoted k ++ 58 :: v.compact
  | (k, v) :: ms => quoted k ++ 58 :: v.compact ++ 44 :: compactMembers ms

end

mutual

/-- One item or member a line, each level indented by two blanks; empty containers on one line. -/
def pretty (level : Nat) : Json → Bytes
  | .array [] => [91, 93]
  | .array (v :: vs) => 91 :: prettyItems (level + 1) (v :: vs) ++ lineBreak level ++ [93]
  | .object [] => [123, 125]
  | .object (m :: ms) => 123 :: prettyMembers (level + 1) (m :: ms) ++ lineBreak level ++ [125]
  | v => v.compact

def prettyItems (level : Nat) : List Json → Bytes
  | [] => []
  | [v] => lineBreak level ++ v.pretty level
  | v :: vs => lineBreak level ++ v.pretty level ++ 44 :: prettyItems level vs

def prettyMembers (level : Nat) : List (String × Json) → Bytes
  | [] => []
  | [(k, v)] => lineBreak level ++ quoted k ++ 58 :: 32 :: v.pretty level
  | (k, v) :: ms =>
    lineBreak level ++ quoted k ++ 58 :: 32 :: v.pretty level ++ 44 :: prettyMembers level ms

end

/-- The members by name, where the last of one name wins. -/
def memberMap (members : List (String × Json)) : OrderedMap String Json := .ofList members

/-- An object whose members ascend by name. -/
def ofMembers (members : List (String × Json)) : Json := .object (memberMap members).entries

mutual

/-- The value with every object's members ascending by name. -/
def sorted : Json → Json
  | .array items => .array (sortedItems items)
  | .object members => ofMembers (sortedMembers members)
  | v => v

def sortedItems : List Json → List Json
  | [] => []
  | v :: vs => v.sorted :: sortedItems vs

def sortedMembers : List (String × Json) → List (String × Json)
  | [] => []
  | (k, v) :: ms => (k, v.sorted) :: sortedMembers ms

end

@[simp] theorem itemDocs_eq_map (vs : List Json) : itemDocs vs = vs.map toDoc := by
  induction vs with
  | nil => rfl
  | cons v vs ih => simp [itemDocs, ih]

@[simp] theorem memberDocs_eq_map (ms : List (String × Json)) :
    memberDocs ms = ms.map fun m => (raw m.1, m.2.toDoc) := by
  induction ms with
  | nil => rfl
  | cons m ms ih => simp [memberDocs, ih]

end Json
end Appchain
