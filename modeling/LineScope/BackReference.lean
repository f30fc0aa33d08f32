import LineScope.Engine
import LineScope.Text.WholeNumber

/-!
Back-references: places in the end pattern of a region, a backslash and a number, that stand for
the text of a group of the begin match.
-/

namespace LineScope.BackReference

inductive Piece where
  | char (c : Char)
  | reference (digits : List Char)
deriving DecidableEq, Repr

/-- What has been read of a piece: nothing, a backslash, or a backslash and digits, the last digit
first. -/
inductive Pending where
  | nothing
  | backslash
  | digits (ds : List Char)

def piecesFrom : Pending → List Char → List Piece
  | .nothing, [] => []
  | .nothing, c :: rest =>
    if c == '\\' then piecesFrom .backslash rest else .char c :: piecesFrom .nothing rest
  | .backslash, [] => [.char '\\']
  | .backslash, c :: rest =>
    if Unicode.isDecimal c then piecesFrom (.digits [c]) rest
    else if c == '\\' then .char '\\' :: piecesFrom .backslash rest
    else .char '\\' :: .char c :: piecesFrom .nothing rest
  | .digits ds, [] => [.reference ds.reverse]
  | .digits ds, c :: rest =>
    if Unicode.isDecimal c then piecesFrom (.digits (c :: ds)) rest
    else if c == '\\' then .reference ds.reverse :: piecesFrom .backslash rest
    else .reference ds.reverse :: .char c :: piecesFrom .nothing rest

def pieces (source : String) : List Piece := piecesFrom .nothing source.toList

def Piece.isReference : Piece → Bool
  | .reference _ => true
  | .char _ => false

def occursIn (source : String) : Bool := (pieces source).any Piece.isReference

def Piece.blanked : Piece → List Char
  | .char c => [c]
  | .reference _ => "(?:)".toList

/-- The pattern with an empty group for every reference. -/
def blank (source : String) : String := String.ofList ((pieces source).flatMap Piece.blanked)

def isSpecial (c : Char) : Bool := "()[]\x7b\x7d?*+-|^$\\.&~# \t\n\r\x0b\x0c".toList.contains c

/-- A text as a pattern for itself. -/
def escape (cs : List Char) : List Char :=
  cs.flatMap fun c => if isSpecial c then ['\\', c] else [c]

structure TooLong where
  digits : Nat
deriving DecidableEq, Repr

/-- The text of a group, escaped; a group that took no part or does not exist has none. -/
def groupText (line : Text) (groups : List (Option Span)) (number : Nat) : List Char :=
  match groups[number]? with
  | some (some span) => escape (line.slice span.start span.stop).toList
  | _ => []

def Piece.resolved (line : Text) (groups : List (Option Span)) : Piece → Except TooLong (List Char)
  | .char c => .ok [c]
  | .reference ds =>
    if Text.digitLimit < ds.length then .error ⟨ds.length⟩
    else .ok (groupText line groups (Text.digitsValue ds))

def resolvedChars (line : Text) (groups : List (Option Span)) :
    List Piece → Except TooLong (List Char)
  | [] => .ok []
  | p :: rest => do
    let cs ← p.resolved line groups
    let more ← resolvedChars line groups rest
    return cs ++ more

/-- The pattern with the text of its group for every reference. -/
def resolve (source : String) (line : Text) (groups : List (Option Span)) :
    Except TooLong String :=
  (resolvedChars line groups (pieces source)).map String.ofList

end LineScope.BackReference
