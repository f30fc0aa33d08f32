import LineScope.Pattern.Level

/-!
Reading a pattern from its source text, token by token; the groups that are open form a stack of
levels.
-/

namespace LineScope.Pattern

/-- What a pattern that reads well may still get wrong: look-behinds of varying width, and
repetition in a template. -/
def Node.mistake? (template : Bool) : Node → Option Mistake
  | .empty | .one _ | .anchor _ | .again .. => none
  | .seq a b | .alt a b | .ifGroup _ a b =>
    match a.mistake? template with
    | some m => some m
    | none => b.mistake? template
  | .capture _ a | .atomic a | .ahead _ a => a.mistake? template
  | .behind _ _ a =>
    if repeatLimit < a.width.least then some .hugeLookbehind
    else if a.width.most != some a.width.least then some .variableLookbehind
    else a.mistake? template
  | .loop greed _ _ a =>
    if template then
      some (.templateRepeat
        (match greed with
          | .greedy => "MAX_REPEAT"
          | .lazy => "MIN_REPEAT"
          | .possessive => "POSSESSIVE_REPEAT"))
    else a.mistake? template

/-- The pattern of the outermost level, at the end of the source or at a parenthesis too many. -/
def finish (level : Level) (flags : List Char) (groups : Groups) (i : Input) : Reading Pattern := do
  if flags.contains 'a' && flags.contains 'u' then .error ⟨.asciiAndUnicode, none⟩
  if i.next.isSome then i.fail .unbalancedParenthesis 0
  match groups.wanted.find? (groups.widths.length < ·.1) with
  | some (number, pos) => .error ⟨.noSuchGroup number, some pos⟩
  | none =>
    match level.body.mistake? (flags.contains 't') with
    | some m => .error ⟨m, none⟩
    | none => return ⟨level.body, groups.widths.length⟩

/-- A comment in a pattern that is laid out freely: the rest of the line. -/
def skipLine : Nat → Input → Reading Input
  | 0, i => .ok i
  | fuel + 1, i => do
    let j ← i.advance
    if i.next.isNone || i.isNext '\n' then return j else skipLine fuel j

def isLayout (c : Char) : Bool := c == ' ' || ('\t' ≤ c && c ≤ '\r')

/-- A quantifier of one character. -/
def shortBounds? : Char → Option (Nat × Option Nat)
  | '?' => some (0, some 1)
  | '*' => some (0, none)
  | '+' => some (1, none)
  | _ => none

def plainItem (mode : Mode) (c : Char) (i : Input) : Reading (Item × Input) :=
  match c with
  | '[' => charSet mode i
  | '.' => .ok (.plain (.one (if mode.dotAll then .anything else .notNewline)), i)
  | '^' => .ok (.ofAnchor (if mode.multiline then .lineStart else .textStart), i)
  | '$' => .ok (.ofAnchor (if mode.multiline then .lineEnd else .lastLineEnd), i)
  | c => .ok (.ofCode mode c.toNat, i)

structure Stage where
  level : Level
  outer : List Level
  groups : Groups
  /-- The flags for the whole pattern. -/
  flags : List Char

namespace Stage

def start : Stage := ⟨.fresh .pattern 0 .plain, [], .initial, []⟩

def add (s : Stage) (item : Item) : Stage := { s with level := s.level.add item }

def enter (s : Stage) (pos : Nat) (i : Input) : Reading (Stage × Input) := do
  let (opened, groups, i) ← openParenthesis pos s.level.mode s.groups i
  let s := { s with groups }
  match opened with
  | .nothing => return (s, i)
  | .item item => return (s.add item, i)
  | .level level => return ({ s with level, outer := s.level :: s.outer }, i)
  | .flags on =>
    if !s.outer.isEmpty || !s.level.branches.isEmpty || !s.level.items.isEmpty then
      .error ⟨.lateFlags, some pos⟩
    let mode := s.level.mode.change on []
    return ({ s with level := { s.level with mode }, flags := on ++ s.flags }, i)

def quantified (s : Stage) (min : Nat) (max : Option Nat) (pos : Nat) (i : Input) :
    Reading (Stage × Input) := do
  let (items, i) ← quantify s.level.items min max pos i
  return ({ s with level := { s.level with items } }, i)

def braced (s : Stage) (pos : Nat) (i : Input) : Reading (Stage × Input) := do
  match ← bracedBounds i with
  | some (min, max, i) => s.quantified min max pos i
  | none => return (s.add (.ofCode s.level.mode 0x7b), i)

def take (s : Stage) (t : Token) (pos : Nat) (i : Input) : Reading (Stage × Input) :=
  match t with
  | .escape c => do
    let (item, i) ← itemEscape s.level.mode s.groups c i
    return (s.add item, i)
  | .char c =>
    if s.level.mode.verbose && isLayout c then .ok (s, i)
    else if s.level.mode.verbose && c == '#' then do
      return (s, ← skipLine (i.rest.length + 2) i)
    else
      match shortBounds? c with
      | some (min, max) => s.quantified min max pos i
      | none =>
        if c == '(' then s.enter pos i
        else if c == '\x7b' then s.braced pos i
        else do
          let (item, i) ← plainItem s.level.mode c i
          return (s.add item, i)

/-- Reads to the end; each round takes at least one token, so the fuel is the number of tokens and
one. -/
def read : Nat → Stage → Input → Reading Pattern
  | 0, s, _ => .error ⟨.unterminatedGroup, some s.level.start⟩
  | fuel + 1, s, i =>
    match i.next with
    | none =>
      if s.outer.isEmpty then finish s.level s.flags s.groups i
      else .error ⟨.unterminatedGroup, some s.level.start⟩
    | some (.char '|') => do
      let level ← s.level.bar i
      read fuel { s with level } (← i.advance)
    | some (.char ')') =>
      match s.outer with
      | [] => finish s.level s.flags s.groups i
      | outside :: outer => do
        let j ← i.advance
        let (node, groups) := s.level.close s.groups
        read fuel { s with level := outside.add (.plain node), outer, groups } j
    | some t => do
      let j ← i.advance
      let (s, j) ← s.take t i.pos j
      read fuel s j

end Stage

end LineScope.Pattern

namespace LineScope

def Pattern.ofChars (source : List Char) : Except Pattern.Problem Pattern := do
  Pattern.Stage.read (source.length + 1) .start (← Pattern.Input.ofChars 0 source)

end LineScope
