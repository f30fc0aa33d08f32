import LineScope.Pattern.Item
import LineScope.Unicode.Identifier

/-!
Levels of parentheses, and what may follow an opening one.
-/

namespace LineScope.Pattern

inductive Opening where
  | pattern
  | group
  | capture (number : Nat)
  | atomic
  | look (behind negated outermost : Bool)
  /-- A condition on a group; `yes` is the branch for when it has matched, once complete. -/
  | ifGroup (number : Nat) (yes : Option Node)

structure Level where
  opening : Opening
  /-- The offset of its parenthesis. -/
  start : Nat
  mode : Mode
  /-- The alternatives that are complete, last first. -/
  branches : List Node
  /-- The items of the current alternative, last first. -/
  items : List Item

namespace Level

def fresh (opening : Opening) (start : Nat) (mode : Mode) : Level := ⟨opening, start, mode, [], []⟩

def add (l : Level) (item : Item) : Level := { l with items := item :: l.items }

def current (l : Level) : Node := .sequence (l.items.reverse.map Item.node)

def body (l : Level) : Node := .choice (l.current :: l.branches).reverse

def bar (l : Level) (i : Input) : Reading Level :=
  match l.opening with
  | .ifGroup number none => .ok { l with opening := .ifGroup number (some l.current), items := [] }
  | .ifGroup _ (some _) => i.fail .thirdBranch 0
  | _ => .ok { l with branches := l.current :: l.branches, items := [] }

/-- The node of a level that is complete, and the groups after it. -/
def close (l : Level) (groups : Groups) : Node × Groups :=
  match l.opening with
  | .pattern | .group => (l.body, groups)
  | .capture number => (.capture number l.body, groups.closed number l.body.width)
  | .atomic => (.atomic l.body, groups)
  | .look behind negated outermost =>
    (if behind then .behind negated l.body.width.least l.body else .ahead negated l.body,
      if outermost then { groups with lookbehind := none } else groups)
  | .ifGroup number (some yes) => (.ifGroup number yes l.current, groups)
  | .ifGroup number none => (.ifGroup number l.current .empty, groups)

end Level

inductive Opened where
  | nothing
  | item (item : Item)
  | level (level : Level)
  | flags (on : List Char)

def skipComment (start : Nat) : Nat → Input → Reading Input
  | 0, _ => .error ⟨.unterminatedComment, some start⟩
  | fuel + 1, i =>
    match i.next with
    | none => .error ⟨.unterminatedComment, some start⟩
    | some t => do
      let i ← i.advance
      if t == .char ')' then return i else skipComment start fuel i

def checkName (name : List Char) (i : Input) : Reading Unit :=
  let name := String.ofList name
  if Unicode.isIdentifier name then .ok () else i.fail (.badGroupName name) (name.length + 1)

def openCapture (start : Nat) (mode : Mode) (name : Option (List Char)) (groups : Groups)
    (i : Input) : Reading (Opened × Groups × Input) := do
  let (number, groups) := groups.opened
  let level := Opened.level (.fresh (.capture number) start mode)
  match name with
  | none => return (level, groups, i)
  | some name =>
    let key := String.ofList name
    match groups.names.lookup key with
    | some old => i.fail (.redefinedGroup key number old) (name.length + 1)
    | none => return (level, { groups with names := (key, number) :: groups.names }, i)

def groupLimit : Nat := 1073741823

/-- The group of a condition, given by name or number. -/
def conditionGroup (name : List Char) (groups : Groups) (i : Input) : Reading (Nat × Groups) := do
  let key := String.ofList name
  if Unicode.isIdentifier key then
    match groups.names.lookup key with
    | some number => return (number, groups)
    | none => i.fail (.unknownGroup key) (name.length + 1)
  else
    match Text.wholeNumber? key with
    | none => i.fail (.badGroupName key) (name.length + 1)
    | some n =>
      if n < 0 then i.fail (.badGroupName key) (name.length + 1)
      let number := n.toNat
      if number == 0 then i.fail .badGroupNumber (name.length + 1)
      if groupLimit ≤ number then i.fail (.noSuchGroup number) (name.length + 1)
      let wanted :=
        if groups.wanted.any (·.1 == number) then groups.wanted
        else groups.wanted ++ [(number, i.pos - (name.length + 1))]
      return (number, { groups with wanted })

def openNamed (start : Nat) (mode : Mode) (groups : Groups) (i : Input) :
    Reading (Opened × Groups × Input) := do
  let j ← i.advance
  match i.next with
  | none => j.fail .unexpectedEnd 0
  | some (.char '<') =>
    let (name, k) ← j.name '>' "group name"
    checkName name k
    openCapture start mode (some name) groups k
  | some (.char '=') =>
    let (name, k) ← j.name ')' "group name"
    checkName name k
    let key := String.ofList name
    match groups.names.lookup key with
    | none => k.fail (.unknownGroup key) (name.length + 1)
    | some number =>
      let node ← groups.refer number mode.letters (name.length + 1) k
      return (.item (.plain node), groups, k)
  | some t => j.fail (.unknownExtension ("?P" ++ t.text)) (t.length + 2)

def openAhead (start : Nat) (mode : Mode) (negated : Bool) : Opened :=
  .level (.fresh (.look false negated false) start mode)

def openBehind (start : Nat) (mode : Mode) (groups : Groups) (i : Input) :
    Reading (Opened × Groups × Input) := do
  let j ← i.advance
  match i.next with
  | none => j.fail .unexpectedEnd 0
  | some t =>
    if t == .char '=' || t == .char '!' then
      let outermost := groups.lookbehind.isNone
      let groups :=
        if outermost then { groups with lookbehind := some groups.widths.length } else groups
      let opening := Opening.look true (t == .char '!') outermost
      return (.level (.fresh opening start mode), groups, j)
    j.fail (.unknownExtension ("?<" ++ t.text)) (t.length + 2)

def openExtension (start : Nat) (mode : Mode) (groups : Groups) (i : Input) :
    Reading (Opened × Groups × Input) := do
  let j ← i.advance
  match i.next with
  | none => j.fail .unexpectedEnd 0
  | some (.escape c) => j.fail (.unknownExtension (String.ofList ['?', '\\', c])) 3
  | some (.char c) =>
    match c with
    | 'P' => openNamed start mode groups j
    | ':' => return (.level (.fresh .group start mode), groups, j)
    | '#' => return (.nothing, groups, ← skipComment start (j.rest.length + 2) j)
    | '=' => return (openAhead start mode false, groups, j)
    | '!' => return (openAhead start mode true, groups, j)
    | '<' => openBehind start mode groups j
    | '(' =>
      let (name, k) ← j.name ')' "group name"
      let (number, groups) ← conditionGroup name groups k
      groups.checkLookbehind number k
      return (.level (.fresh (.ifGroup number none) start mode), groups, k)
    | '>' => return (.level (.fresh .atomic start mode), groups, j)
    | c =>
      if isFlag c || c == '-' then
        let (flags, k) ← flagGroup c j
        match flags with
        | .whole on => return (.flags on, groups, k)
        | .opening on off => return (.level (.fresh .group start (mode.change on off)), groups, k)
      else j.fail (.unknownExtension (String.ofList ['?', c])) 2

def openParenthesis (start : Nat) (mode : Mode) (groups : Groups) (i : Input) :
    Reading (Opened × Groups × Input) := do
  let (extension, i) ← i.accept '?'
  if extension then openExtension start mode groups i
  else openCapture start mode none groups i

end LineScope.Pattern
