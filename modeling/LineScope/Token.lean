import LineScope.Scope
import LineScope.Text.Basic

/-!
Tokens: spans of a line with the scope path of their text.
-/

namespace LineScope

structure Token where
  start : Int
  stop : Int
  scopes : ScopePath
deriving DecidableEq, Repr

namespace Token

inductive Fault where
  | noScope
  | negativeLength
  | hugeLength
deriving DecidableEq, Repr

def Fault.message : Fault → String
  | .noScope => "tuple index out of range"
  | .negativeLength => "__len__() should return >= 0"
  | .hugeLength => "cannot fit 'int' into an index-sized integer"

/-- The most specific scope. -/
def scope (t : Token) : Except Fault String :=
  match t.scopes.getLast? with
  | some s => .ok s
  | none => .error .noScope

/-- Lengths from here on do not fit a machine word. -/
def lengthLimit : Int := 0x8000000000000000

def length (t : Token) : Except Fault Int :=
  if t.stop < t.start then .error .negativeLength
  else if lengthLimit ≤ t.stop - t.start then .error .hugeLength
  else .ok (t.stop - t.start)

def text (t : Token) (line : Text) : Text := line.slice t.start t.stop

def display (t : Token) : String :=
  let path := " ".intercalate t.scopes
  s!"ScopedToken({t.start}:{t.stop}, {path})"

def consMerged (t : Token) : List Token → List Token
  | [] => [t]
  | u :: rest => if t.scopes = u.scopes then ⟨t.start, u.stop, t.scopes⟩ :: rest else t :: u :: rest

def merge (tokens : List Token) : List Token := tokens.foldr consMerged []

end Token

end LineScope
