import LineScope.Scan.Lines
import LineScope.Text.Lines

/-!
Documents: the lines of a text with what each was tokenized to. After an edit the lines are
tokenized again from the first one replaced. When a line behind the replaced ones ends with the
stack that it ended with before, the lines after it keep what they have.
-/

namespace LineScope

variable {M : Type}

structure Document (M : Type) where
  grammar : Grammar M
  lines : List Text
  /-- What each line was tokenized to; none for a line whose turn did not come, as another failed
  before. -/
  results : List (Option (LineResult M))

namespace Document

inductive Fault where
  | outside (start stop : Int) (count : Nat)
  | noLine
  /-- A line has no tokens or no stack. -/
  | untokenized (part : String)
  | scan (fault : LineScope.Fault)
deriving DecidableEq, Repr

def Fault.message : Fault → String
  | .outside start stop count => s!"edit range {start}:{stop} outside 0:{count}"
  | .noLine => "list index out of range"
  | .untokenized part => s!"'NoneType' object has no attribute '{part}'"
  | .scan fault => fault.message

structure Change (M : Type) (α : Type) where
  document : Document M
  outcome : Except Fault α
  events : List Event

def empty (g : Grammar M) : Document M := ⟨g, [], []⟩

/-- Replaces the whole text. If a line fails, the results stay those of the old text. -/
def setText (d : Document M) (limits : Limits) (text : List Char) : Change M Unit :=
  let lines := (Text.lines text).map List.toArray
  let run := d.grammar.tokenizeLines limits lines .initial
  match run.fault with
  | some fault => ⟨{ d with lines }, .error (.scan fault), run.events⟩
  | none => ⟨{ d with lines, results := run.results.map some }, .ok (), run.events⟩

/-- The result of a line; a number below zero counts from the end. -/
def resultAt (d : Document M) (part : String) (line : Int) : Except Fault (LineResult M) :=
  match atSigned? d.results line with
  | none => .error .noLine
  | some none => .error (.untokenized part)
  | some (some r) => .ok r

def tokensFor (d : Document M) (line : Int) : Except Fault (List Token) :=
  (d.resultAt "tokens" line).map LineResult.tokens

def endStack (d : Document M) (line : Int) : Except Fault (Stack M) :=
  (d.resultAt "stack" line).map LineResult.stack

def startStack (d : Document M) (line : Int) : Except Fault (Stack M) :=
  if 0 < line then d.endStack (line - 1) else .ok .initial

structure Catchup (M : Type) where
  results : List (LineResult M)
  events : List Event
  /-- The old results from where they hold again, if they do. -/
  rest : Except Fault (Option (List (Option (LineResult M))))

/-- Tokenizes lines that have results, `old`, until one ends with the stack that it ended with
before. -/
def catchUp (g : Grammar M) (limits : Limits) :
    List Text → List (Option (LineResult M)) → Stack M → Catchup M
  | [], _, _ => ⟨[], [], .ok none⟩
  | line :: lines, old, stack =>
    let run := g.tokenizeLine limits line stack
    match run.result with
    | .error fault => ⟨[], run.events, .error (.scan fault)⟩
    | .ok r =>
      match old with
      | [] => ⟨[], run.events, .error .noLine⟩
      | none :: _ => ⟨[], run.events, .error (.untokenized "stack")⟩
      | some before :: old =>
        if before.stack.same r.stack then ⟨[r], run.events, .ok (some old)⟩
        else
          let more := catchUp g limits lines old r.stack
          ⟨r :: more.results, run.events ++ more.events, more.rest⟩

/-- Replaces lines, the first of which has the number `a` and the last the number `b - 1`, and
tokenizes what that changes, from the stack at the start of the first. -/
def replace (d : Document M) (limits : Limits) (a b : Nat) (new : List Text) (stack : Stack M) :
    Change M (Nat × Nat) :=
  let behind := d.lines.drop b
  let lines := d.lines.take a ++ new ++ behind
  let kept := d.results.take a
  let run := d.grammar.tokenizeLines limits new stack
  let fresh := run.results.map some
  match run.fault with
  | some fault =>
    let missing := List.replicate (new.length - fresh.length) none
    ⟨{ d with lines, results := kept ++ fresh ++ missing }, .error (.scan fault), run.events⟩
  | none =>
    let catchup := catchUp d.grammar limits behind (d.results.drop b) (run.endStack stack)
    let results := kept ++ fresh ++ catchup.results.map some
    let events := run.events ++ catchup.events
    match catchup.rest with
    | .error fault => ⟨{ d with lines, results }, .error fault, events⟩
    | .ok rest =>
      let reached := a + new.length + catchup.results.length
      ⟨{ d with lines, results := results ++ rest.getD [] }, .ok (a, reached),
        events ++ [.retokenized a (reached - 1)]⟩

/-- Replaces the lines from `start` up to `stop`, and tokenizes what that changes. Gives the range
of lines that were tokenized. -/
def edit (d : Document M) (limits : Limits) (start stop : Int) (new : List Text) :
    Change M (Nat × Nat) :=
  if start < 0 ∨ stop < start ∨ d.lines.length < stop then
    ⟨d, .error (.outside start stop d.lines.length), []⟩
  else
    let a := start.toNat
    let b := stop.toNat
    let spliced : Document M := {
      d with
      lines := d.lines.take a ++ new ++ d.lines.drop b
      results := d.results.take a ++ List.replicate new.length none }
    match spliced.startStack start with
    | .error fault => ⟨spliced, .error fault, []⟩
    | .ok stack => d.replace limits a b new stack

end Document

end LineScope
