import LineScope.Pattern.Basic
import LineScope.Pattern.Input

/-!
The groups of a pattern that is being read, and references to them.
-/

namespace LineScope.Pattern

structure Groups where
  /-- The width of each group, group 1 first; none while the group is open. -/
  widths : List (Option Width)
  names : List (String × Nat)
  /-- Inside a look-behind, how many groups there were when the outermost one opened. -/
  lookbehind : Option Nat
  /-- Group numbers of conditions that must exist in the end, each with its first offset. -/
  wanted : List (Nat × Nat)
deriving Repr

namespace Groups

def initial : Groups := ⟨[], [], none, []⟩

def width? (g : Groups) (number : Nat) : Option Width :=
  if number == 0 then none else (g.widths[number - 1]?).join

/-- Refuses to refer, inside a look-behind, to a group that is open or that the look-behind
itself holds. -/
def checkLookbehind (g : Groups) (number : Nat) (i : Input) : Reading Unit :=
  match g.lookbehind with
  | none => .ok ()
  | some outside =>
    if (g.width? number).isNone then i.fail .openGroup 0
    else if outside < number then i.fail .groupOfSameLookbehind 0
    else .ok ()

/-- A node for the text of a group; `back` is how far before the input the reference begins. -/
def refer (g : Groups) (number : Nat) (letters : Letters) (back : Nat) (i : Input) :
    Reading Node := do
  match g.width? number with
  | none => i.fail .openGroup back
  | some w =>
    g.checkLookbehind number i
    return .again number letters w

def opened (g : Groups) : Nat × Groups :=
  (g.widths.length + 1, { g with widths := g.widths ++ [none] })

def closed (g : Groups) (number : Nat) (w : Width) : Groups :=
  { g with widths := g.widths.set (number - 1) (some w) }

end Groups

end LineScope.Pattern
