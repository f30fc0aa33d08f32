import LineScope.Scope

/-!
Stacks of open regions, the state that is carried from one line to the next. Two stacks are the
same if their regions are; the matchers that they carry for the ends do not count.
-/

namespace LineScope

structure Region where
  /-- The number of the rule that opened it. -/
  rule : Int
  context : String
  /-- The end pattern, with references to the begin match filled in. -/
  endSource : String
  /-- The scopes of the delimiters. -/
  nameScopes : ScopePath
  /-- The scopes of what is inside. -/
  scopes : ScopePath
deriving DecidableEq, Repr

/-- An open region on a stack, with the matcher for its end if it is at hand. -/
structure Frame (M : Type) extends Region where
  closer : Option M

/-- The open regions, innermost first. -/
abbrev Stack (M : Type) := List (Frame M)

namespace Stack

variable {M : Type}

/-- No open region: the state at the start of a document. -/
def initial : Stack M := []

def top? (s : Stack M) : Option (Frame M) := s.head?

def push (s : Stack M) (f : Frame M) : Stack M := f :: s

/-- The stack without its innermost region; the initial stack stays as it is. -/
def pop (s : Stack M) : Stack M := s.tail

def depth (s : Stack M) : Nat := s.length

def isInitial (s : Stack M) : Bool := s.isEmpty

def scopes (s : Stack M) (root : String) : ScopePath :=
  match s with
  | [] => [root]
  | f :: _ => f.scopes

def regions (s : Stack M) : List Region := s.map Frame.toRegion

def same (s t : Stack M) : Bool := s.regions == t.regions

def display (s : Stack M) : String :=
  let path := if s.isEmpty then "<initial>" else " > ".intercalate (s.reverse.map (·.context))
  s!"ContextStack({path})"

@[simp] theorem regions_push (s : Stack M) (f : Frame M) :
    (s.push f).regions = f.toRegion :: s.regions := rfl

@[simp] theorem pop_push (s : Stack M) (f : Frame M) : (s.push f).pop = s := rfl

theorem same_iff {s t : Stack M} : s.same t = true ↔ s.regions = t.regions := by
  simp [same]

end Stack

end LineScope
