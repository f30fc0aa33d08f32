import LineScope.BackReference
import LineScope.Event
import LineScope.Grammar.Basic
import LineScope.Limits
import LineScope.Stack

/-!
Scanning a line. From the cursor on, the earliest match wins among the end of the innermost region
and the rules of its context; it is projected to tokens, and a region opens or closes. What no rule
matches becomes tokens of the current scopes. Matches of no characters leave the cursor where it
is, so the states met at one place are kept, and one that comes again forces a step.
-/

namespace LineScope

variable {M : Type}

inductive Fault where
  /-- A reference in an end pattern has more digits than a number may have. -/
  | longReference (digits : Nat)
  | overflow (reason : String)
  | noContext (name : String)
  | noRule (id : Int)
  | nothingToClose
  /-- An end pattern was refused with its references left out. -/
  | blankRejected (reason : String)
  /-- The scan did not come to an end within the iterations that it is given. -/
  | endless
deriving DecidableEq, Repr

def Fault.message : Fault → String
  | .longReference digits => Text.tooManyDigits digits
  | .overflow reason | .blankRejected reason => reason
  | .noContext name => Text.quoted name
  | .noRule _ => "tuple index out of range"
  | .nothingToClose => ""
  | .endless => "the scan does not end"

structure Tally where
  iterations : Nat
  probes : Nat
  forced : Nat
deriving DecidableEq, Repr

structure Scan (M : Type) where
  cursor : Int
  stack : Stack M
  /-- The tokens so far, last first. -/
  tokens : List Token
  /-- The states met at the cursor: depth and innermost rule. -/
  seen : List (Nat × Int)
  tally : Tally
  /-- The events so far, last first. -/
  events : List Event

namespace Scan

def start (stack : Stack M) : Scan M := ⟨0, stack, [], [], ⟨0, 0, 0⟩, []⟩

def record (s : Scan M) (e : Event) : Scan M := { s with events := e :: s.events }

/-- Adds a token behind others, of which the last comes first; it extends the last one if it
touches it and has the same scopes. -/
def addToken (tokens : List Token) (t : Token) : List Token :=
  match tokens with
  | [] => [t]
  | u :: rest =>
    if u.scopes = t.scopes ∧ u.stop = t.start then ⟨u.start, t.stop, t.scopes⟩ :: rest
    else t :: u :: rest

def emit (s : Scan M) (t : Token) : Scan M :=
  if t.stop ≤ t.start then s else { s with tokens := addToken s.tokens t }

def emitAll (s : Scan M) (tokens : List Token) : Scan M := tokens.foldl emit s

/-- Emits the text up to an offset under the current scopes and moves the cursor there. -/
def passTo (s : Scan M) (g : Grammar M) (stop : Int) : Scan M :=
  { s.emit ⟨s.cursor, stop, s.stack.scopes g.scopeName⟩ with cursor := stop }

inductive Winner (M : Type) where
  | closer
  | rule (r : Rule M)

structure Found (M : Type) where
  winner : Winner M
  hit : Match

def better (best : Option (Found M)) (m : Match) : Bool :=
  match best with
  | some b => m.start < b.hit.start
  | none => true

/-- Searches for the rules in order and keeps the earliest match, the first of several. A match at
the cursor ends the search. The number is that of the searches. -/
def findRule (e : Engine M) (line : Text) (cursor : Int) :
    List (Rule M) → Option (Found M) → Option (Found M) × Nat
  | [], best => (best, 0)
  | r :: rest, best =>
    match e.search r.matcher line cursor with
    | none =>
      let (found, probes) := findRule e line cursor rest best
      (found, probes + 1)
    | some m =>
      if better best m then
        if m.start = cursor then (some ⟨.rule r, m⟩, 1)
        else
          let (found, probes) := findRule e line cursor rest (some ⟨.rule r, m⟩)
          (found, probes + 1)
      else
        let (found, probes) := findRule e line cursor rest best
        (found, probes + 1)

/-- The candidates in a place: the rules of the context, and the matcher for the end of the region
with the flag whether rules win against it. -/
structure Candidates (M : Type) where
  rules : List (Rule M)
  closer : Option M
  endLast : Bool

def candidates (g : Grammar M) (stack : Stack M) : Except Fault (Candidates M) :=
  match stack.top? with
  | none =>
    match g.context? ContextName.root.text with
    | some c => .ok ⟨c.rules, none, false⟩
    | none => .error (.noContext ContextName.root.text)
  | some f =>
    match g.context? f.context, g.rule? f.rule with
    | none, _ => .error (.noContext f.context)
    | _, none => .error (.noRule f.rule)
    | some c, some (.leaf _) => .ok ⟨c.rules, f.closer, false⟩
    | some c, some (.region r) => .ok ⟨c.rules, f.closer, r.endLast⟩

/-- The winner among candidates, and the number of searches. -/
def choose (e : Engine M) (line : Text) (cursor : Int) (c : Candidates M) :
    Option (Found M) × Nat :=
  match c.closer with
  | none => findRule e line cursor c.rules none
  | some closer =>
    if c.endLast then
      let (best, probes) := findRule e line cursor c.rules none
      match e.search closer line cursor with
      | none => (best, probes + 1)
      | some m => (if better best m then some ⟨.closer, m⟩ else best, probes + 1)
    else
      match e.search closer line cursor with
      | none =>
        let (best, probes) := findRule e line cursor c.rules none
        (best, probes + 1)
      | some m =>
        if m.start = cursor then (some ⟨.closer, m⟩, 1)
        else
          let (best, probes) := findRule e line cursor c.rules (some ⟨.closer, m⟩)
          (best, probes + 1)

/-- What comes of a part of the scan: a scan to go on with, or a fault and the scan up to it. -/
abbrev Outcome (M : Type) := Except (Fault × Scan M) (Scan M)

def cover (s : Scan M) (m : Match) (captures : List Capture) (scopes : ScopePath) : Scan M :=
  { s.emitAll (Capture.project m.start m.stop m.groups captures scopes) with cursor := m.stop }

def applyLeaf (s : Scan M) (g : Grammar M) (r : MatchRule M) (m : Match) : Scan M :=
  if m.isEmpty then s
  else s.cover m r.captures ((s.stack.scopes g.scopeName).extend r.scope)

/-- Compiles the end of a region with its references filled in, or left out if the engine rejects
that. -/
def bindEnd (s : Scan M) (g : Grammar M) (line : Text) (r : RegionRule M) (m : Match) :
    Except (Fault × Scan M) (String × M × Scan M) :=
  match BackReference.resolve r.endSource line m.groups with
  | .error tooLong => .error (.longReference tooLong.digits, s)
  | .ok bound =>
    match g.engine.compile bound with
    | .ok closer => .ok (bound, closer, s)
    | .error (.overflow reason) => .error (.overflow reason, s)
    | .error (.rejected _) =>
      let s := s.record (.endRejected bound)
      let blank := BackReference.blank r.endSource
      match g.engine.compile blank with
      | .ok closer => .ok (blank, closer, s)
      | .error (.overflow reason) => .error (.overflow reason, s)
      | .error (.rejected reason) => .error (.blankRejected reason, s)

def frameFor (r : RegionRule M) (nameScopes : ScopePath) (endSource : String) (closer : M) :
    Frame M where
  rule := r.id
  context := r.inner.text
  endSource := endSource
  nameScopes := nameScopes
  scopes := nameScopes.extend r.contentScope
  closer := some closer

/-- Emits a begin match and opens its region, unless too many are open. -/
def openRegion (s : Scan M) (g : Grammar M) (line : Text) (limits : Limits) (r : RegionRule M)
    (m : Match) : Outcome M :=
  let nameScopes := (s.stack.scopes g.scopeName).extend r.scope
  let s := s.cover m r.beginCaptures nameScopes
  if limits.depth ≤ s.stack.depth then .ok (s.record (.depthReached limits.depth r.beginSource))
  else
    match r.closer with
    | some closer =>
      .ok { s with stack := s.stack.push (frameFor r nameScopes r.endSource closer) }
    | none =>
      match s.bindEnd g line r m with
      | .ok (endSource, closer, s) =>
        .ok { s with stack := s.stack.push (frameFor r nameScopes endSource closer) }
      | .error failure => .error failure

/-- Emits an end match and closes the innermost region. -/
def closeRegion (s : Scan M) (g : Grammar M) (m : Match) : Outcome M :=
  match s.stack.top? with
  | none => .error (.nothingToClose, s)
  | some f =>
    match g.rule? f.rule with
    | none => .error (.noRule f.rule, s)
    | some (.leaf _) => .ok { s.cover m [] f.nameScopes with stack := s.stack.pop }
    | some (.region r) => .ok { s.cover m r.endCaptures f.nameScopes with stack := s.stack.pop }

def apply (s : Scan M) (g : Grammar M) (line : Text) (limits : Limits) (found : Found M) :
    Outcome M :=
  let s := if s.cursor < found.hit.start then s.passTo g found.hit.start else s
  match found.winner with
  | .closer => s.closeRegion g found.hit
  | .rule (.leaf r) => .ok (s.applyLeaf g r found.hit)
  | .rule (.region r) => s.openRegion g line limits r found.hit

/-- The state of a scan that does not move: depth and innermost rule, -1 if no region is open. -/
def state (s : Scan M) : Nat × Int :=
  (s.stack.depth, match s.stack.top? with | some f => f.rule | none => -1)

def Winner.isLeaf : Winner M → Bool
  | .rule (.leaf _) => true
  | _ => false

def forceStep (s : Scan M) (g : Grammar M) : Scan M :=
  let s := s.passTo g (s.cursor + 1)
  { s with tally := { s.tally with forced := s.tally.forced + 1 } }

inductive Step (M : Type) where
  | going (s : Scan M)
  | finished (s : Scan M)
  | failed (fault : Fault) (s : Scan M)

/-- After a match that did not move the cursor: a match of a leaf rule, or a state met before,
forces a step, and ends the scan at the end of the line. -/
def guard (s : Scan M) (g : Grammar M) (line : Text) (w : Winner M) : Step M :=
  if w.isLeaf || s.seen.contains s.state then
    if line.size ≤ s.cursor then .finished s else .going { s.forceStep g with seen := [] }
  else .going { s with seen := s.state :: s.seen }

def step (g : Grammar M) (line : Text) (limits : Limits) (s : Scan M) : Step M :=
  let s := { s with tally := { s.tally with iterations := s.tally.iterations + 1 } }
  match candidates g s.stack with
  | .error fault => .failed fault s
  | .ok among =>
    let (found?, probes) := choose g.engine line s.cursor among
    let s := { s with tally := { s.tally with probes := s.tally.probes + probes } }
    match found? with
    | none => .finished (s.passTo g line.size)
    | some found =>
      match s.apply g line limits found with
      | .error (fault, s) => .failed fault s
      | .ok t =>
        if s.cursor < t.cursor then .going { t with seen := [] } else t.guard g line found.winner

/-- Iterates to the end, for at most the given number of iterations. -/
def run (g : Grammar M) (line : Text) (limits : Limits) : Nat → Scan M → Outcome M
  | 0, s => .error (.endless, s)
  | fuel + 1, s =>
    match step g line limits s with
    | .going s => run g line limits fuel s
    | .finished s => .ok s
    | .failed fault s => .error (fault, s)

end Scan

end LineScope
