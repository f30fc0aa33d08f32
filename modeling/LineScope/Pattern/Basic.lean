import LineScope.Unicode.Case
import LineScope.Unicode.Blank
import LineScope.Unicode.Word

/-!
Patterns: what a search expression is once it has been read, with every flag already resolved
into the nodes that it concerns.
-/

namespace LineScope.Pattern

/-- How characters compare: case may be ignored, and the character classes may be those of ASCII
alone. -/
structure Letters where
  ignoreCase : Bool
  ascii : Bool
deriving DecidableEq, Repr

namespace Letters

def lower (l : Letters) (c : Char) : Char :=
  if l.ascii then Unicode.asciiLower c else Unicode.lower c

def variants (l : Letters) (c : Char) : List Char :=
  if !l.ignoreCase then [c]
  else if l.ascii then [c, c.toLower, c.toUpper]
  else c :: Unicode.caseVariants c

end Letters

inductive Category where
  | digit
  | space
  | word
deriving DecidableEq, Repr

def Category.holds (k : Category) (ascii : Bool) (c : Char) : Bool :=
  match k with
  | .digit => if ascii then c.isDigit else Unicode.isDecimal c
  | .space => if ascii then c == ' ' || ('\t' ≤ c && c ≤ '\r') else Unicode.isBlank c
  | .word => if ascii then c.isAlphanum || c == '_' else Unicode.isWord c

/-- A member of a character set. Characters are given by their code points, as an escape may
write one that no text contains. -/
inductive SetItem where
  | code (n : Nat)
  | range (first last : Nat)
  | category (k : Category) (negated : Bool)
deriving DecidableEq, Repr

def SetItem.accepts (l : Letters) (c : Char) : SetItem → Bool
  | .code n => (l.variants c).any (·.toNat == n)
  | .range first last => (l.variants c).any fun v => first ≤ v.toNat && v.toNat ≤ last
  | .category k negated => k.holds l.ascii c != negated

inductive CharTest where
  | notNewline
  | anything
  | literal (code : Nat) (letters : Letters)
  | oneOf (negated : Bool) (items : List SetItem) (letters : Letters)
deriving DecidableEq, Repr

def CharTest.accepts (c : Char) : CharTest → Bool
  | .notNewline => c != '\n'
  | .anything => true
  | .literal n l => (SetItem.code n).accepts l c
  | .oneOf negated items l => items.any (·.accepts l c) != negated

inductive Anchor where
  | textStart
  | lineStart
  | textEnd
  | lineEnd
  /-- The end of the text, or the place before its final line break. -/
  | lastLineEnd
  | wordEdge (ascii negated : Bool)
deriving DecidableEq, Repr

inductive Greed where
  | greedy
  | lazy
  | possessive
deriving DecidableEq, Repr

/-- The least and the greatest length of the texts that a node matches; no greatest length when
they are unbounded. -/
structure Width where
  least : Nat
  most : Option Nat
deriving DecidableEq, Repr

inductive Node where
  | empty
  | one (test : CharTest)
  | anchor (a : Anchor)
  | seq (first second : Node)
  | alt (first second : Node)
  | capture (group : Nat) (body : Node)
  /-- The text of an earlier group; `width` is that of the group. -/
  | again (group : Nat) (letters : Letters) (width : Width)
  | loop (greed : Greed) (min : Nat) (max : Option Nat) (body : Node)
  | ahead (negated : Bool) (body : Node)
  /-- A condition on the text before; `width` is the length of the body. -/
  | behind (negated : Bool) (width : Nat) (body : Node)
  | atomic (body : Node)
  | ifGroup (group : Nat) (yes no : Node)
deriving Repr

namespace Width

def zero : Width := ⟨0, some 0⟩

def add (v w : Width) : Width := ⟨v.least + w.least, v.most.bind fun a => w.most.map (a + ·)⟩

def join (v w : Width) : Width :=
  ⟨min v.least w.least, v.most.bind fun a => w.most.map (max a ·)⟩

def times (w : Width) (min : Nat) (max : Option Nat) : Width :=
  ⟨w.least * min,
    match w.most, max with
    | some 0, _ => some 0
    | some n, some k => some (n * k)
    | none, some 0 => some 0
    | _, _ => none⟩

end Width

namespace Node

def width : Node → Width
  | .empty | .anchor _ | .ahead .. | .behind .. => .zero
  | .one _ => ⟨1, some 1⟩
  | .seq a b => a.width.add b.width
  | .alt a b => a.width.join b.width
  | .capture _ a | .atomic a => a.width
  | .again _ _ w => w
  | .loop _ min max a => a.width.times min max
  | .ifGroup _ a b => a.width.join b.width

def sequence : List Node → Node
  | [] => .empty
  | [a] => a
  | a :: rest => .seq a (sequence rest)

/-- The nodes as alternatives, the first preferred. -/
def choice : List Node → Node
  | [] => .empty
  | [a] => a
  | a :: rest => .alt a (choice rest)

end Node

end LineScope.Pattern

namespace LineScope

structure Pattern where
  root : Pattern.Node
  /-- How many groups capture. -/
  groups : Nat
deriving Repr

end LineScope
