import LineScope.Json.Basic
import LineScope.Decimal.Shortest
import LineScope.Text.Quoted
import LineScope.Text.WholeNumber

/-!
Writing JSON documents as ASCII texts: on one line with chosen separators, or indented. The
canonical form sorts the members of every object and leaves no spaces. Integers with too many
digits have no text.
-/

namespace LineScope.Json

def unitEscape (n : Nat) : List Char := '\\' :: 'u' :: Text.hexDigits 4 n

def escapeChar (c : Char) : List Char :=
  if c == '"' then ['\\', '"']
  else if c == '\\' then ['\\', '\\']
  else if c == '\n' then ['\\', 'n']
  else if c == '\r' then ['\\', 'r']
  else if c == '\t' then ['\\', 't']
  else if c == '\x0c' then ['\\', 'f']
  else if c == '\x08' then ['\\', 'b']
  else if ' ' ≤ c && c ≤ '~' then [c]
  else if c.toNat < 0x10000 then unitEscape c.toNat
  else
    let n := c.toNat - 0x10000
    unitEscape (0xD800 + n / 0x400) ++ unitEscape (0xDC00 + n % 0x400)

def quote (s : String) : List Char := '"' :: s.toList.flatMap escapeChar ++ ['"']

def intText (n : Int) : List Char :=
  if n < 0 then '-' :: Nat.toDigits 10 n.natAbs else Nat.toDigits 10 n.natAbs

mutual

/-- No integer of the document has more digits than are written. -/
def isWritable : Json → Bool
  | .int n => n.natAbs < 10 ^ Text.digitLimit
  | .arr items => areWritable items
  | .obj members => areMembersWritable members
  | _ => true

def areWritable : List Json → Bool
  | [] => true
  | v :: rest => isWritable v && areWritable rest

def areMembersWritable : List (String × Json) → Bool
  | [] => true
  | (_, v) :: rest => isWritable v && areMembersWritable rest

end

def floatText (x : Float) : List Char := (Decimal.render ⟨"NaN", "Infinity"⟩ x).toList

structure Layout where
  afterItem : List Char
  afterName : List Char
  /-- The spaces for each level of nesting, if every item has a line of its own. -/
  indent : Option Nat

namespace Layout

def compact : Layout := ⟨[','], [':'], none⟩

def spaced : Layout := ⟨[',', ' '], [':', ' '], none⟩

def indented (width : Nat) : Layout := ⟨[','], [':', ' '], some width⟩

def lineBreak (l : Layout) (level : Nat) : List Char :=
  match l.indent with
  | some width => '\n' :: List.replicate (width * level) ' '
  | none => []

def enclose (l : Layout) (level : Nat) (opening closing : Char) : List (List Char) → List Char
  | [] => [opening, closing]
  | first :: rest =>
    opening :: l.lineBreak (level + 1) ++ first
      ++ rest.flatMap (fun item => l.afterItem ++ l.lineBreak (level + 1) ++ item)
      ++ l.lineBreak level ++ [closing]

end Layout

mutual

def write (l : Layout) (level : Nat) : Json → List Char
  | .null => "null".toList
  | .bool true => "true".toList
  | .bool false => "false".toList
  | .int n => intText n
  | .float x => floatText x
  | .str s => quote s
  | .arr items => l.enclose level '[' ']' (writeItems l (level + 1) items)
  | .obj members => l.enclose level '\x7b' '\x7d' (writeMembers l (level + 1) members)

def writeItems (l : Layout) (level : Nat) : List Json → List (List Char)
  | [] => []
  | v :: rest => write l level v :: writeItems l level rest

def writeMembers (l : Layout) (level : Nat) : List (String × Json) → List (List Char)
  | [] => []
  | (name, v) :: rest =>
    (quote name ++ l.afterName ++ write l level v) :: writeMembers l level rest

end

/-- Puts a member in front of the first one with a greater name. -/
def insertMember (member : String × Json) : Members → Members
  | [] => [member]
  | first :: rest =>
    if first.1 ≤ member.1 then first :: insertMember member rest else member :: first :: rest

/-- Members by name, in the order of code points. -/
def sortMembers (members : Members) : Members :=
  members.foldl (fun sorted m => insertMember m sorted) []

mutual

def sorted : Json → Json
  | .arr items => .arr (sortedItems items)
  | .obj members => .obj (sortMembers (sortedMembers members))
  | v => v

def sortedItems : List Json → List Json
  | [] => []
  | v :: rest => sorted v :: sortedItems rest

def sortedMembers : List (String × Json) → List (String × Json)
  | [] => []
  | (name, v) :: rest => (name, sorted v) :: sortedMembers rest

end

/-- One text for all documents that differ only in the order of members. -/
def canonical (v : Json) : String := String.ofList (write .compact 0 v.sorted)

/-- The document with sorted members, on one line or indented; an indent below zero is none, but
the lines are still broken. -/
def print (indent : Option Int) (v : Json) : String :=
  let layout := match indent with | some width => .indented width.toNat | none => .spaced
  String.ofList (write layout 0 v.sorted)

end LineScope.Json
