import Appchain.Json.Token

/-!
# Documents as they are read

A `Doc` is the tree of a text up to its first syntax fault. A container that the
text does not close correctly says so, and so does every container around it,
therefore a reader that takes members and items in order meets a fault exactly
where the text breaks and never has to look into parts that it skips.

Trees are built from tokens by a machine with an explicit stack, one token a
step, so nesting costs no recursion.
-/

namespace Appchain.Json

inductive Doc where
  | fault
  | null
  | bool (value : Bool)
  | number (literal : Bytes)
  | text (raw : Bytes)
  | array (items : List Doc) (closed : Bool)
  | object (members : List (Bytes × Doc)) (closed : Bool)
  deriving Inhabited

namespace Doc

/-- An unfinished container, with its finished parts latest first. -/
inductive Frame where
  | array (items : List Doc)
  | object (members : List (Bytes × Doc))
  | entry (members : List (Bytes × Doc)) (key : Bytes)

/-- What the machine expects next. -/
inductive Expect where
  | value
  | itemOrClose
  | keyOrClose
  | key
  | colon
  | commaOrClose

/-- The tree when the text breaks off: `part` is what has been read of the innermost value. -/
def breakOff (part : Option Doc) : List Frame → Doc
  | [] => part.getD .fault
  | .array items :: s => breakOff (some (.array (part.toList ++ items).reverse false)) s
  | .object members :: s => breakOff (some (.object members.reverse false)) s
  | .entry members k :: s =>
    breakOff (some (.object ((k, part.getD .fault) :: members).reverse false)) s

/-- What a token does to the machine. -/
inductive Step where
  | done (d : Doc)
  | expect (e : Expect) (stack : List Frame)
  | broken

/-- Puts a finished value into the innermost container; without one the value is the document. -/
def attach (d : Doc) : List Frame → Step
  | [] => .done d
  | .array items :: s => .expect .commaOrClose (.array (d :: items) :: s)
  | .object members :: s => .expect .commaOrClose (.object members :: s)
  | .entry members k :: s => .expect .commaOrClose (.object ((k, d) :: members) :: s)

def startValue (s : List Frame) : Token → Step
  | .null => attach .null s
  | .bool b => attach (.bool b) s
  | .number l => attach (.number l) s
  | .text r => attach (.text r) s
  | .openArray => .expect .itemOrClose (.array [] :: s)
  | .openObject => .expect .keyOrClose (.object [] :: s)
  | _ => .broken

def startMember : List Frame → Token → Step
  | .object members :: s, .text k => .expect .colon (.entry members k :: s)
  | _, _ => .broken

/-- Finishes the innermost container, if the token closes it. -/
def close : List Frame → Token → Step
  | .array items :: s, .closeArray => attach (.array items.reverse true) s
  | .object members :: s, .closeObject => attach (.object members.reverse true) s
  | _, _ => .broken

def step : Expect → List Frame → Token → Step
  | .value, s, t => startValue s t
  | .itemOrClose, s, .closeArray => close s .closeArray
  | .itemOrClose, s, t => startValue s t
  | .keyOrClose, s, .closeObject => close s .closeObject
  | .keyOrClose, s, t => startMember s t
  | .key, s, t => startMember s t
  | .colon, s, .colon => .expect .value s
  | .colon, _, _ => .broken
  | .commaOrClose, .array items :: s, .comma => .expect .value (.array items :: s)
  | .commaOrClose, .object members :: s, .comma => .expect .key (.object members :: s)
  | .commaOrClose, s, t => close s t

/-- Runs the machine. Returns the tree and the tokens after it. -/
def run : Expect → List Frame → List Token → Doc × List Token
  | _, s, [] => (breakOff none s, [])
  | e, s, t :: ts =>
    match step e s t with
    | .done d => (d, ts)
    | .expect e s => run e s ts
    | .broken => (breakOff none s, [.fault])

/-- The tree of a text, and whether nothing but blanks follows it. -/
def parse (s : Bytes) : Doc × Bool :=
  let r := run .value [] (tokens s)
  (r.1, r.2 = [])

end Doc
end Appchain.Json
