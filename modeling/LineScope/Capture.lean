import LineScope.Engine
import LineScope.Token

/-!
Captures: scopes for the groups of a match. Projection cuts the span of a match at the ends of its
captured groups and gives every piece the scopes of the groups that hold it.
-/

namespace LineScope

/-- A scope for a group. -/
structure Capture where
  group : Nat
  scope : String
deriving DecidableEq, Repr

namespace Capture

def le (c d : Capture) : Bool := c.group < d.group || (c.group == d.group && c.scope ≤ d.scope)

def insert (c : Capture) : List Capture → List Capture
  | [] => [c]
  | d :: rest => if d.le c then d :: insert c rest else c :: d :: rest

def sort (captures : List Capture) : List Capture :=
  captures.foldl (fun sorted c => insert c sorted) []

structure Stretch where
  start : Int
  stop : Int
  scope : String
deriving DecidableEq, Repr

/-- The part of a captured group within the match; none if the group took no part or the part is
empty. -/
def stretch? (start stop : Int) (groups : List (Option Span)) (c : Capture) : Option Stretch :=
  match groups[c.group]? with
  | some (some span) =>
    let a := max span.start start
    let b := min span.stop stop
    if a < b then some ⟨a, b, c.scope⟩ else none
  | _ => none

def insertCut (x : Int) : List Int → List Int
  | [] => [x]
  | y :: rest =>
    if x < y then x :: y :: rest else if x = y then y :: rest else y :: insertCut x rest

def cuts (start stop : Int) (stretches : List Stretch) : List Int :=
  (start :: stop :: stretches.flatMap fun s => [s.start, s.stop]).foldr insertCut []

/-- The scopes of a piece: those of the stretches that hold it, in order. -/
def scopesOf (base : ScopePath) (stretches : List Stretch) (a b : Int) : ScopePath :=
  stretches.foldl
    (fun path s => if s.start ≤ a ∧ b ≤ s.stop then path.extend (some s.scope) else path) base

def pieces (base : ScopePath) (stretches : List Stretch) : List Int → List Token
  | a :: b :: rest => ⟨a, b, scopesOf base stretches a b⟩ :: pieces base stretches (b :: rest)
  | _ => []

def project (start stop : Int) (groups : List (Option Span)) (captures : List Capture)
    (base : ScopePath) : List Token :=
  if stop ≤ start then []
  else
    let stretches := captures.filterMap (stretch? start stop groups)
    Token.merge (pieces base stretches (cuts start stop stretches))

end Capture

end LineScope
