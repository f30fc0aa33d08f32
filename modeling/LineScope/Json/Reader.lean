import LineScope.Json.Basic
import LineScope.Text.WholeNumber

/-!
Reading JSON texts. The words `NaN`, `Infinity` and `-Infinity` are read as numbers; of members
with one name the last value counts, at the place of the first.
-/

namespace LineScope.Json

inductive Mistake where
  | noValue
  | noName
  | noColon
  | noComma
  | openString
  | controlCharacter
  | badEscape
  | badUnicodeEscape
  | extraData
  | byteOrderMark
deriving DecidableEq, Repr

def Mistake.message : Mistake → String
  | .noValue => "Expecting value"
  | .noName => "Expecting property name enclosed in double quotes"
  | .noColon => "Expecting ':' delimiter"
  | .noComma => "Expecting ',' delimiter"
  | .openString => "Unterminated string starting at"
  | .controlCharacter => "Invalid control character at"
  | .badEscape => "Invalid \\escape"
  | .badUnicodeEscape => "Invalid \\uXXXX escape"
  | .extraData => "Extra data"
  | .byteOrderMark => "Unexpected UTF-8 BOM (decode using utf-8-sig)"

inductive Problem where
  | malformed (mistake : Mistake) (pos : Nat)
  | tooManyDigits (count : Nat)
deriving DecidableEq, Repr

def Problem.report (source : List Char) : Problem → String
  | .malformed m pos =>
    let before := source.take pos
    let line := before.count '\n' + 1
    let column := (before.reverse.takeWhile (· != '\n')).length + 1
    s!"{m.message}: line {line} column {column} (char {pos})"
  | .tooManyDigits count => Text.tooManyDigits count

structure Input where
  pos : Nat
  rest : List Char

abbrev Reading := Except Problem

namespace Input

def drop (i : Input) (n : Nat) : Input := ⟨i.pos + n, i.rest.drop n⟩

def fail {α : Type} (i : Input) (m : Mistake) : Reading α := .error (.malformed m i.pos)

def isSpace (c : Char) : Bool := c == ' ' || c == '\t' || c == '\n' || c == '\r'

def skipSpace (i : Input) : Input := i.drop (i.rest.takeWhile isSpace).length

end Input

def hexDigit? (c : Char) : Option Nat :=
  if c.isDigit then some (c.toNat - '0'.toNat)
  else if 'a' ≤ c && c ≤ 'f' then some (c.toNat - 'a'.toNat + 10)
  else if 'A' ≤ c && c ≤ 'F' then some (c.toNat - 'A'.toNat + 10)
  else none

def hexUnit? : List Char → Option Nat
  | a :: b :: c :: d :: _ :: _ => do
    return ((← hexDigit? a) * 16 + (← hexDigit? b)) * 256 + (← hexDigit? c) * 16 + (← hexDigit? d)
  | _ => none

def isHighUnit (n : Nat) : Bool := 0xD800 ≤ n && n ≤ 0xDBFF

def isLowUnit (n : Nat) : Bool := 0xDC00 ≤ n && n ≤ 0xDFFF

/-- A character from what follows `\u`: its four digits, or those of two halves. Gives the
character and the number of characters read; the offset is that of the `u`. -/
def unicodeEscape (pos : Nat) (cs : List Char) : Reading (Char × Nat) :=
  match hexUnit? cs with
  | none => .error (.malformed .badUnicodeEscape pos)
  | some unit =>
    match isHighUnit unit, cs.drop 4 with
    | true, '\\' :: 'u' :: more =>
      if more.length < 5 then .ok (Char.ofNat 0xFFFD, 4)
      else
        match hexUnit? more with
        | none => .error (.malformed .badUnicodeEscape (pos + 6))
        | some low =>
          if isLowUnit low then
            .ok (Char.ofNat (0x10000 + (unit - 0xD800) * 0x400 + (low - 0xDC00)), 10)
          else .ok (Char.ofNat 0xFFFD, 4)
    | _, _ =>
      .ok (Char.ofNat (if isHighUnit unit || isLowUnit unit then 0xFFFD else unit), 4)

def shortEscape? : Char → Option Char
  | '"' => some '"'
  | '\\' => some '\\'
  | '/' => some '/'
  | 'b' => some '\x08'
  | 'f' => some '\x0c'
  | 'n' => some '\n'
  | 'r' => some '\r'
  | 't' => some '\t'
  | _ => none

/-- The rest of a string whose quote stands at `start`; `read` holds what has been read, last
character first. -/
def stringRest (start : Nat) (read : List Char) : Nat → Input → Reading (String × Input)
  | 0, _ => .error (.malformed .openString start)
  | fuel + 1, i =>
    match i.rest with
    | [] => .error (.malformed .openString start)
    | '"' :: _ => .ok (String.ofList read.reverse, i.drop 1)
    | '\\' :: [] => .error (.malformed .openString start)
    | '\\' :: 'u' :: more => do
      let (c, length) ← unicodeEscape (i.pos + 1) more
      stringRest start (c :: read) fuel (i.drop (2 + length))
    | '\\' :: e :: _ =>
      match shortEscape? e with
      | some c => stringRest start (c :: read) fuel (i.drop 2)
      | none => i.fail .badEscape
    | c :: _ =>
      if c.toNat < 0x20 then i.fail .controlCharacter
      else stringRest start (c :: read) fuel (i.drop 1)

def string (i : Input) : Reading (String × Input) :=
  stringRest i.pos [] (i.rest.length + 1) (i.drop 1)

/-- The float `digits · 10^exponent`; far out of range it is infinite or zero. -/
def floatOf (negative : Bool) (digits : Nat) (exponent : Int) : Float :=
  let size := (Nat.toDigits 10 digits).length + exponent
  let x :=
    if digits == 0 || size < -400 then 0.0
    else if 400 < size then 1.0 / 0.0
    else Float.ofScientific digits (exponent < 0) exponent.natAbs
  if negative then -x else x

def fraction : List Char → List Char
  | '.' :: c :: rest => if c.isDigit then c :: rest.takeWhile Char.isDigit else []
  | _ => []

def exponent? : List Char → Option (Int × Nat)
  | e :: rest =>
    if e == 'e' || e == 'E' then
      let (negative, signs, rest) :=
        match rest with
        | '-' :: rest => (true, 1, rest)
        | '+' :: rest => (false, 1, rest)
        | rest => (false, 0, rest)
      let digits := rest.takeWhile Char.isDigit
      if digits.isEmpty then none
      else
        let n : Int := Text.digitsValue digits
        some (if negative then -n else n, 1 + signs + digits.length)
    else none
  | [] => none

/-- A number without its sign, of which `taken` characters are the sign. -/
def unsigned (negative : Bool) (taken : Nat) (i : Input) (cs : List Char) :
    Reading (Json × Input) :=
  let whole :=
    match cs with
    | '0' :: _ => ['0']
    | cs => cs.takeWhile Char.isDigit
  if whole.isEmpty then i.fail .noValue
  else
    let after := cs.drop whole.length
    let places := fraction after
    let used := if places.isEmpty then 0 else places.length + 1
    let exponent := exponent? (after.drop used)
    let rest := i.drop (taken + whole.length + used + (exponent.map (·.2)).getD 0)
    if places.isEmpty && exponent.isNone then
      if Text.digitLimit < whole.length then .error (.tooManyDigits whole.length)
      else
        let n : Int := Text.digitsValue whole
        .ok (.int (if negative then -n else n), rest)
    else
      let e := (exponent.map (·.1)).getD 0
      .ok (.float (floatOf negative (Text.digitsValue (whole ++ places)) (e - places.length)), rest)

def number (i : Input) : Reading (Json × Input) :=
  match i.rest with
  | '-' :: rest => unsigned true 1 i rest
  | cs => unsigned false 0 i cs

def words : List (List Char × Json) :=
  [("null".toList, .null), ("true".toList, .bool true), ("false".toList, .bool false),
    ("NaN".toList, .float (0.0 / 0.0)), ("Infinity".toList, .float (1.0 / 0.0)),
    ("-Infinity".toList, .float (-1.0 / 0.0))]

def word? (i : Input) : Option (Json × Input) :=
  (words.find? fun w => w.1.isPrefixOf i.rest).map fun w => (w.2, i.drop w.1.length)

mutual

/-- The value that begins here. The fuel bounds the values inside values and the members. -/
def value : Nat → Input → Reading (Json × Input)
  | 0, i => i.fail .noValue
  | fuel + 1, i =>
    match i.rest with
    | '"' :: _ => do
      let (s, j) ← string i
      return (.str s, j)
    | '\x7b' :: _ =>
      let j := (i.drop 1).skipSpace
      match j.rest with
      | '\x7d' :: _ => .ok (.obj [], j.drop 1)
      | _ => members fuel [] j
    | '[' :: _ =>
      let j := (i.drop 1).skipSpace
      match j.rest with
      | ']' :: _ => .ok (.arr [], j.drop 1)
      | _ => items fuel [] j
    | _ =>
      match word? i with
      | some found => .ok found
      | none => number i

def items : Nat → List Json → Input → Reading (Json × Input)
  | 0, _, i => i.fail .noValue
  | fuel + 1, before, i => do
    let (v, j) ← value fuel i
    let j := j.skipSpace
    match j.rest with
    | ']' :: _ => return (.arr (v :: before).reverse, j.drop 1)
    | ',' :: _ => items fuel (v :: before) (j.drop 1).skipSpace
    | _ => j.fail .noComma

def members : Nat → Members → Input → Reading (Json × Input)
  | 0, _, i => i.fail .noName
  | fuel + 1, before, i =>
    match i.rest with
    | '"' :: _ => do
      let (name, j) ← string i
      let j := j.skipSpace
      match j.rest with
      | ':' :: _ =>
        let (v, k) ← value fuel (j.drop 1).skipSpace
        let k := k.skipSpace
        let before := before.set name v
        match k.rest with
        | '\x7d' :: _ => return (.obj before, k.drop 1)
        | ',' :: _ => members fuel before (k.drop 1).skipSpace
        | _ => k.fail .noComma
      | _ => j.fail .noColon
    | _ => i.fail .noName

end

def ofChars (source : List Char) : Reading Json :=
  match source with
  | '\uFEFF' :: _ => .error (.malformed .byteOrderMark 0)
  | _ => do
    let (v, i) ← value (2 * source.length + 2) (Input.skipSpace ⟨0, source⟩)
    let i := i.skipSpace
    if i.rest.isEmpty then return v else i.fail .extraData

end LineScope.Json
