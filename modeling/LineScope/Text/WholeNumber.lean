import LineScope.Unicode.Blank
import LineScope.Unicode.Numeral

/-!
Whole numbers as people write them: an optional sign, decimal digits of any script with single
underscores between them, and white space around. No more than 4300 digits are read or written.
-/

namespace LineScope.Text

open Unicode

/-- The most digits a written number may have. -/
def digitLimit : Nat := 4300

def tooManyDigits (count : Nat) : String :=
  s!"Exceeds the limit (4300 digits) for integer string conversion: value has {count} digits; " ++
    "use sys.set_int_max_str_digits() to increase the limit"

/-- The complaint about a number that cannot be written with `digitLimit` digits. -/
def unwritable : String :=
  "Exceeds the limit (4300 digits) for integer string conversion; " ++
    "use sys.set_int_max_str_digits() to increase the limit"

def digitsValue (digits : List Char) : Nat :=
  digits.foldl (fun n c => 10 * n + (digitValue? c).getD 0) 0

def isNumberSpace (c : Char) : Bool :=
  c == ' ' || ('\t' ≤ c && c ≤ '\r')

/-- In a text with a character beyond ASCII, the white space beyond ASCII counts as a space. -/
def unifySpaces (cs : List Char) : List Char :=
  cs.map fun c => if c.toNat ≥ 128 && isBlank c then ' ' else c

/-- Reads digits with single underscores between them, and gives the digits and the rest.
`started` says that the character before was a digit. -/
def digitGroup (started : Bool) : List Char → Option (List Char × List Char)
  | [] => if started then some ([], []) else none
  | c :: rest =>
    if isDecimal c then (digitGroup true rest).map fun (ds, rest) => (c :: ds, rest)
    else if c == '_' && started then digitGroup false rest
    else if started then some ([], c :: rest)
    else none

def signed : List Char → Bool × List Char
  | '-' :: rest => (true, rest)
  | '+' :: rest => (false, rest)
  | cs => (false, cs)

/-- The whole number that a text writes. -/
def wholeNumber? (s : String) : Option Int :=
  let (negative, cs) := signed ((unifySpaces s.toList).dropWhile isNumberSpace)
  match digitGroup false cs with
  | none => none
  | some (digits, rest) =>
    if rest.all isNumberSpace && digits.length ≤ digitLimit then
      let n := digitsValue digits
      some (if negative then -n else n)
    else none

end LineScope.Text
