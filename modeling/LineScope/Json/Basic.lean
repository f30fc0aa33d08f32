/-!
JSON documents. The members of an object keep the order in which they were written.
-/

namespace LineScope

inductive Json where
  | null
  | bool (b : Bool)
  | int (n : Int)
  | float (x : Float)
  | str (s : String)
  | arr (items : List Json)
  | obj (members : List (String × Json))

namespace Json

abbrev Members := List (String × Json)

def Members.get? (members : Members) (key : String) : Option Json := members.lookup key

def Members.has (members : Members) (key : String) : Bool := members.any (·.1 == key)

/-- Sets a member: a new one at the end, an old one where it stands. -/
def Members.set (members : Members) (key : String) (value : Json) : Members :=
  if members.has key then members.map fun m => if m.1 == key then (key, value) else m
  else members ++ [(key, value)]

def str? : Json → Option String
  | .str s => some s
  | _ => none

def int? : Json → Option Int
  | .int n => some n
  | _ => none

/-- Whether a value counts as true where a condition is wanted: all but null, false, zero and what
is empty. -/
def isTrue : Json → Bool
  | .null => false
  | .bool b => b
  | .int n => n != 0
  | .float x => x != 0
  | .str s => !s.isEmpty
  | .arr items => !items.isEmpty
  | .obj members => !members.isEmpty

end Json

end LineScope
