import LineScope.Pattern.Basic
import LineScope.Pattern.Input
import LineScope.Unicode.Letter

namespace LineScope.Pattern

structure Mode where
  ignoreCase : Bool
  multiline : Bool
  dotAll : Bool
  verbose : Bool
  ascii : Bool
deriving DecidableEq, Repr

namespace Mode

def plain : Mode := ⟨false, false, false, false, false⟩

def letters (m : Mode) : Letters := ⟨m.ignoreCase, m.ascii⟩

def change (m : Mode) (added removed : List Char) : Mode :=
  let flag (c : Char) (old : Bool) := (old || added.contains c) && !removed.contains c
  { ignoreCase := flag 'i' m.ignoreCase
    multiline := flag 'm' m.multiline
    dotAll := flag 's' m.dotAll
    verbose := flag 'x' m.verbose
    ascii := added.contains 'a' || (m.ascii && !added.contains 'u') }

end Mode

def isFlag (c : Char) : Bool := "iLmsxatu".toList.contains c

/-- Flags that choose the classes of letters; only one of them may be on. -/
def isTypeFlag (c : Char) : Bool := c == 'a' || c == 'L' || c == 'u'

def badFlag {α : Type} (i : Input) (t : Token) (otherwise : Mistake) : Reading α :=
  match t with
  | .char c => i.fail (if Unicode.isLetter c then .unknownFlag else otherwise) 1
  | .escape _ => i.fail otherwise 2

/-- Flags to turn on, the first of which has been read: the flags and the character that ends
them. -/
def flagsOn (on : List Char) : Nat → Char → Input → Reading (List Char × Char × Input)
  | 0, _, i => i.fail .missingAfterFlags 0
  | fuel + 1, c, i => do
    if c == 'L' then i.fail .localeFlag 0
    let on := c :: on
    if isTypeFlag c && on.any (fun d => isTypeFlag d && d != c) then i.fail .incompatibleFlags 0
    let j ← i.advance
    match i.next with
    | none => j.fail .missingAfterFlags 0
    | some (.char d) =>
      if d == ')' || d == '-' || d == ':' then return (on, d, j)
      else if isFlag d then flagsOn on fuel d j
      else badFlag j (.char d) .missingAfterFlags
    | some t => badFlag j t .missingAfterFlags

def flagsOff (off : List Char) : Nat → Char → Input → Reading (List Char × Input)
  | 0, _, i => i.fail .missingColon 0
  | fuel + 1, c, i => do
    if isTypeFlag c then i.fail .typeFlagOff 0
    let off := c :: off
    let j ← i.advance
    match i.next with
    | none => j.fail .missingColon 0
    | some (.char d) =>
      if d == ':' then return (off, j)
      else if isFlag d then flagsOff off fuel d j
      else badFlag j (.char d) .missingColon
    | some t => badFlag j t .missingColon

inductive FlagGroup where
  /-- Flags for the whole pattern. -/
  | whole (on : List Char)
  /-- Flags for the group that they open. -/
  | opening (on off : List Char)

def flagGroup (first : Char) (i : Input) : Reading (FlagGroup × Input) := do
  let fuel := i.rest.length + 2
  let (on, final, i) ← if first == '-' then pure ([], '-', i) else flagsOn [] fuel first i
  if final == ')' then return (.whole on, i)
  if on.contains 't' then i.fail .globalFlagOn 1
  if final == ':' then return (.opening on [], i)
  let j ← i.advance
  match i.next with
  | none => j.fail .missingFlag 0
  | some (.char d) =>
    if isFlag d then
      let (off, k) ← flagsOff [] fuel d j
      if off.contains 't' then k.fail .globalFlagOff 1
      if on.any off.contains then k.fail .flagOnAndOff 1
      return (.opening on off, k)
    else badFlag j (.char d) .missingFlag
  | some t => badFlag j t .missingFlag

end LineScope.Pattern
