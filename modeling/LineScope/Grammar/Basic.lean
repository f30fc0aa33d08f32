import LineScope.Capture
import LineScope.Text.Quoted

/-!
Grammars: rules, and contexts, which are the lists of rules that apply in a place. The rules of a
grammar are numbered, and every region has a context of its own for what it holds.
-/

namespace LineScope

inductive ContextName where
  | root
  /-- An entry of the repository. -/
  | entry (key : String)
  /-- What is inside the regions of a rule. -/
  | inside (rule : Nat)
deriving DecidableEq, Repr

def ContextName.text : ContextName → String
  | .root => "$self"
  | .entry key => "#" ++ key
  | .inside rule => "@" ++ toString rule

/-- A rule that gives scopes to what one pattern matches. -/
structure MatchRule (M : Type) where
  id : Nat
  source : String
  matcher : M
  scope : Option String
  captures : List Capture

/-- A rule for regions, which run from a begin match to an end match and may span lines. -/
structure RegionRule (M : Type) where
  id : Nat
  beginSource : String
  opener : M
  endSource : String
  /-- The matcher for the end, unless it depends on the begin match. -/
  closer : Option M
  scope : Option String
  contentScope : Option String
  beginCaptures : List Capture
  endCaptures : List Capture
  /-- Whether rules inside win against the end where both match. -/
  endLast : Bool

namespace RegionRule

variable {M : Type}

def inner (r : RegionRule M) : ContextName := .inside r.id

/-- Whether the end pattern is built from the begin match. -/
def bindsEnd (r : RegionRule M) : Bool := r.closer.isNone

end RegionRule

inductive Rule (M : Type) where
  | leaf (r : MatchRule M)
  | region (r : RegionRule M)

namespace Rule

variable {M : Type}

def id : Rule M → Nat
  | .leaf r => r.id
  | .region r => r.id

def matcher : Rule M → M
  | .leaf r => r.matcher
  | .region r => r.opener

def isRegion : Rule M → Bool
  | .leaf _ => false
  | .region _ => true

end Rule

structure Context (M : Type) where
  name : ContextName
  rules : List (Rule M)

structure Grammar (M : Type) where
  scopeName : String
  name : Option String
  contexts : List (Context M)
  /-- All rules, each at the place of its number. -/
  rules : List (Rule M)
  engine : Engine M

namespace Grammar

variable {M : Type}

def context? (g : Grammar M) (name : String) : Option (Context M) :=
  g.contexts.find? (·.name.text == name)

def rule? (g : Grammar M) (id : Int) : Option (Rule M) :=
  if id < 0 then none else g.rules[id.toNat]?

def region? (g : Grammar M) (id : Int) : Option (RegionRule M) :=
  match g.rule? id with
  | some (.region r) => some r
  | _ => none

def regionCount (g : Grammar M) : Nat := g.rules.countP Rule.isRegion

def display (g : Grammar M) : String :=
  s!"Grammar({Text.quoted g.scopeName}, contexts={g.contexts.length}, rules={g.rules.length})"

end Grammar

end LineScope
