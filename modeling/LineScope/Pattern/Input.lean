import LineScope.Pattern.Problem

/-!
The source of a pattern as it is read: one token at a time, which is a character, or a backslash
together with the character after it.
-/

namespace LineScope.Pattern

inductive Token where
  | char (c : Char)
  | escape (c : Char)
deriving DecidableEq, Repr

namespace Token

def chars : Token → List Char
  | .char c => [c]
  | .escape c => ['\\', c]

def length (t : Token) : Nat := t.chars.length

def text (t : Token) : String := String.ofList t.chars

end Token

/-- The source from an offset on, with the token that comes next. -/
structure Input where
  pos : Nat
  next : Option Token
  rest : List Char
deriving Repr

abbrev Reading := Except Problem

namespace Input

/-- The input at the start of a source. A backslash that ends the source is refused as soon as it
comes next. -/
def ofChars (pos : Nat) : List Char → Reading Input
  | [] => .ok ⟨pos, none, []⟩
  | ['\\'] => .error ⟨.trailingBackslash, some pos⟩
  | '\\' :: c :: rest => .ok ⟨pos, some (.escape c), rest⟩
  | c :: rest => .ok ⟨pos, some (.char c), rest⟩

def advance (i : Input) : Reading Input :=
  match i.next with
  | none => .ok i
  | some t => ofChars (i.pos + t.length) i.rest

def fail {α : Type} (i : Input) (m : Mistake) (back : Nat) : Reading α :=
  .error ⟨m, some (i.pos - back)⟩

def isNext (i : Input) (c : Char) : Bool := i.next == some (.char c)

def accept (i : Input) (c : Char) : Reading (Bool × Input) :=
  if i.isNext c then do return (true, ← i.advance) else .ok (false, i)

def takeWhile (accepted : Char → Bool) : Nat → Input → Reading (List Char × Input)
  | 0, i => .ok ([], i)
  | limit + 1, i =>
    match i.next with
    | some (.char c) =>
      if accepted c then do
        let (cs, j) ← takeWhile accepted limit (← i.advance)
        return (c :: cs, j)
      else .ok ([], i)
    | _ => .ok ([], i)

def takeAll (accepted : Char → Bool) (i : Input) : Reading (List Char × Input) :=
  i.takeWhile accepted (i.rest.length + 1)

/-- A name that ends with `terminator`; `read` holds what has been read, in reverse. -/
def nameUntil (terminator : Char) (what : String) (read : List Char) :
    Nat → Input → Reading (List Char × Input)
  | 0, i => i.fail (.missingName what) 0
  | fuel + 1, i => do
    let j ← i.advance
    match i.next with
    | none =>
      if read.isEmpty then j.fail (.missingName what) 0
      else j.fail (.unterminatedName terminator) read.length
    | some t =>
      if t == .char terminator then
        if read.isEmpty then j.fail (.missingName what) 1 else return (read.reverse, j)
      else nameUntil terminator what (t.chars.reverse ++ read) fuel j

def name (i : Input) (terminator : Char) (what : String) : Reading (List Char × Input) :=
  i.nameUntil terminator what [] (i.rest.length + 2)

end Input

end LineScope.Pattern
