import LineScope.Pattern.Groups
import LineScope.Pattern.Mode

/-!
The items that the alternatives of a pattern consist of: characters and their escapes, character
sets, and what a quantifier makes of an item.
-/

namespace LineScope.Pattern

def hexValue (digits : List Char) : Nat :=
  digits.foldl (fun n c =>
    16 * n + (if c.isDigit then c.toNat - '0'.toNat else c.toLower.toNat - 'a'.toNat + 10)) 0

def octalValue (digits : List Char) : Nat :=
  digits.foldl (fun n c => 8 * n + (c.toNat - '0'.toNat)) 0

def isHexDigit (c : Char) : Bool :=
  c.isDigit || ('a' ≤ c && c ≤ 'f') || ('A' ≤ c && c ≤ 'F')

def isOctalDigit (c : Char) : Bool := '0' ≤ c && c ≤ '7'

/-- A character given by exactly `count` hexadecimal digits after the letter `kind`. -/
def hexEscape (kind : Char) (count : Nat) (i : Input) : Reading (Nat × Input) := do
  let (digits, j) ← i.takeWhile isHexDigit count
  let written := '\\' :: kind :: digits
  if digits.length != count then
    j.fail (.incompleteEscape (String.ofList written)) written.length
  else if 0x10FFFF < hexValue digits then
    j.fail (.badEscape (String.ofList written)) written.length
  else return (hexValue digits, j)

/-- A character given by its name; no names are known. -/
def namedEscape (i : Input) : Reading (Nat × Input) := do
  let (found, j) ← i.accept '\x7b'
  if !found then j.fail .missingBrace 0
  let (name, k) ← j.name '\x7d' "character name"
  k.fail (.undefinedCharacter (String.ofList name)) (name.length + 4)

def octalEscape (digits : List Char) (i : Input) : Reading (Nat × Input) :=
  if 0o377 < octalValue digits then
    i.fail (.octalRange (String.ofList ('\\' :: digits))) (digits.length + 1)
  else .ok (octalValue digits, i)

def controlEscape? : Char → Option Nat
  | 'a' => some 7
  | 'b' => some 8
  | 't' => some 9
  | 'n' => some 10
  | 'v' => some 11
  | 'f' => some 12
  | 'r' => some 13
  | '\\' => some 92
  | _ => none

def categoryEscape? : Char → Option (Category × Bool)
  | 'd' => some (.digit, false)
  | 'D' => some (.digit, true)
  | 's' => some (.space, false)
  | 'S' => some (.space, true)
  | 'w' => some (.word, false)
  | 'W' => some (.word, true)
  | _ => none

def anchorEscape? (mode : Mode) : Char → Option Anchor
  | 'A' => some .textStart
  | 'Z' => some .textEnd
  | 'b' => some (.wordEdge mode.ascii false)
  | 'B' => some (.wordEdge mode.ascii true)
  | _ => none

/-- The escapes that mean one character wherever they stand, other than octal ones. -/
def charEscape (c : Char) (i : Input) : Reading (Nat × Input) :=
  if c == 'x' then hexEscape c 2 i
  else if c == 'u' then hexEscape c 4 i
  else if c == 'U' then hexEscape c 8 i
  else if c == 'N' then namedEscape i
  else if c.isAlphanum then i.fail (.badEscape (String.ofList ['\\', c])) 2
  else .ok (c.toNat, i)

def setEscape (c : Char) (i : Input) : Reading (SetItem × Input) :=
  match controlEscape? c, categoryEscape? c with
  | some n, _ => .ok (.code n, i)
  | none, some (k, negated) => .ok (.category k negated, i)
  | none, none => do
    if isOctalDigit c then
      let (digits, j) ← i.takeWhile isOctalDigit 2
      let (n, j) ← octalEscape (c :: digits) j
      return (.code n, j)
    else
      let (n, j) ← charEscape c i
      return (.code n, j)

/-- A node that stands for a sequence of its own, with what matters to a quantifier after it. -/
structure Item where
  node : Node
  isAnchor : Bool
  isLoop : Bool
deriving Repr

namespace Item

def plain (node : Node) : Item := ⟨node, false, false⟩

def ofAnchor (a : Anchor) : Item := ⟨.anchor a, true, false⟩

def ofCode (mode : Mode) (n : Nat) : Item := plain (.one (.literal n mode.letters))

end Item

def numberEscape (mode : Mode) (groups : Groups) (c : Char) (i : Input) :
    Reading (Item × Input) := do
  let (second, j) ← i.takeWhile Char.isDigit 1
  let (third, k) ←
    if (c :: second).length == 2 && (c :: second).all isOctalDigit then j.takeWhile isOctalDigit 1
    else pure ([], j)
  if third.length == 1 then
    let (n, k) ← octalEscape (c :: second ++ third) k
    return (.ofCode mode n, k)
  let number := Text.digitsValue (c :: second)
  let length := second.length + 2
  if number ≤ groups.widths.length then
    return (.plain (← groups.refer number mode.letters length k), k)
  k.fail (.noSuchGroup number) (length - 1)

def itemEscape (mode : Mode) (groups : Groups) (c : Char) (i : Input) : Reading (Item × Input) :=
  match anchorEscape? mode c, categoryEscape? c, controlEscape? c with
  | some a, _, _ => .ok (.ofAnchor a, i)
  | none, some (k, negated), _ =>
    .ok (.plain (.one (.oneOf false [.category k negated] mode.letters)), i)
  | none, none, some n => .ok (.ofCode mode n, i)
  | none, none, none => do
    if c == '0' then
      let (digits, j) ← i.takeWhile isOctalDigit 2
      return (.ofCode mode (octalValue digits), j)
    else if c.isDigit then numberEscape mode groups c i
    else
      let (n, j) ← charEscape c i
      return (.ofCode mode n, j)

def setMember (t : Token) (i : Input) : Reading (SetItem × Input) :=
  match t with
  | .char c => .ok (.code c.toNat, i)
  | .escape c => setEscape c i

/-- The members of a set up to the closing bracket; `here` is the offset of the opening one, and
`items` holds the members so far, last first. -/
def setItems (here : Nat) (items : List SetItem) : Nat → Input → Reading (List SetItem × Input)
  | 0, _ => .error ⟨.unterminatedSet, some here⟩
  | fuel + 1, i =>
    match i.next with
    | none => .error ⟨.unterminatedSet, some here⟩
    | some this => do
      let i ← i.advance
      if this == .char ']' && !items.isEmpty then return (items.reverse, i)
      let (first, i) ← setMember this i
      let (isRange, i) ← i.accept '-'
      if !isRange then setItems here (first :: items) fuel i
      else
        match i.next with
        | none => .error ⟨.unterminatedSet, some here⟩
        | some that =>
          let i ← i.advance
          if that == .char ']' then
            return ((.code '-'.toNat :: first :: items).reverse, i)
          let (last, i) ← setMember that i
          let bad : Mistake := .badRange this.text that.text
          match first, last with
          | .code a, .code b =>
            if b < a then i.fail bad (this.length + 1 + that.length)
            else setItems here (.range a b :: items) fuel i
          | _, _ => i.fail bad (this.length + 1 + that.length)

def charSet (mode : Mode) (i : Input) : Reading (Item × Input) := do
  let here := i.pos - 1
  let (negated, i) ← i.accept '^'
  let (items, i) ← setItems here [] (i.rest.length + 2) i
  return (.plain (.one (.oneOf negated items mode.letters)), i)

def repeatLimit : Nat := 4294967295

def repeatBound (digits : List Char) (default : Option Nat) : Reading (Option Nat) :=
  if digits.isEmpty then .ok default
  else if Text.digitLimit < digits.length then .error ⟨.tooManyDigits digits.length, none⟩
  else if repeatLimit ≤ Text.digitsValue digits then .error ⟨.hugeRepeat, none⟩
  else .ok (some (Text.digitsValue digits))

/-- The bounds in braces, the opening one of which has been read; none if this is no quantifier
and the brace stands for itself. -/
def bracedBounds (i : Input) : Reading (Option (Nat × Option Nat × Input)) := do
  if i.isNext '\x7d' then return none
  let (low, j) ← i.takeAll Char.isDigit
  let (comma, j) ← j.accept ','
  let (high, j) ← if comma then j.takeAll Char.isDigit else pure (low, j)
  let (closed, k) ← j.accept '\x7d'
  if !closed then return none
  let min ← repeatBound low (some 0)
  let max ← repeatBound high none
  let min := min.getD 0
  if max.any (· < min) then .error ⟨.minAboveMax, some i.pos⟩
  return some (min, max, k)

def quantify (items : List Item) (min : Nat) (max : Option Nat) (here : Nat) (i : Input) :
    Reading (List Item × Input) :=
  match items with
  | [] => .error ⟨.nothingToRepeat, some here⟩
  | item :: before => do
    if item.isAnchor then .error ⟨.nothingToRepeat, some here⟩
    if item.isLoop then .error ⟨.multipleRepeat, some here⟩
    let (isLazy, i) ← i.accept '?'
    let (isPossessive, i) ← if isLazy then pure (false, i) else i.accept '+'
    let greed := if isLazy then .lazy else if isPossessive then .possessive else .greedy
    return (⟨.loop greed min max item.node, false, true⟩ :: before, i)

end LineScope.Pattern
