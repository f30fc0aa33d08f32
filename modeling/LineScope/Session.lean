import LineScope.Scan.Lines

/-!
Sessions: the limits in force, and the profiles that count the work of scans. Limits and profiles
are opened and closed in a nested way; only the innermost open profile counts.
-/

namespace LineScope

variable {M : Type}

structure Profile where
  lines : Nat
  characters : Nat
  tokens : Nat
  iterations : Nat
  probes : Nat
  forced : Nat
deriving DecidableEq, Repr

namespace Profile

def empty : Profile := ⟨0, 0, 0, 0, 0, 0⟩

/-- Counts a line. Its searches count even if its scan fails, the line itself only if it does
not. -/
def count (p : Profile) (line : Text) (run : LineRun M) : Profile :=
  let p := {
    p with
    iterations := p.iterations + run.tally.iterations
    probes := p.probes + run.tally.probes
    forced := p.forced + run.tally.forced }
  match run.result with
  | .ok r =>
    { p with
      lines := p.lines + 1
      characters := p.characters + line.size
      tokens := p.tokens + r.tokens.length }
  | .error _ => p

end Profile

structure Session where
  limits : Limits
  /-- The limits to come back to, innermost first. -/
  saved : List Limits
  /-- The open profiles, innermost first. -/
  profiles : List Profile

namespace Session

def start : Session := ⟨.default, [], []⟩

def setLimits (s : Session) (limits : Limits) : Session := { s with limits }

def enterLimits (s : Session) (limits : Limits) : Session :=
  { s with limits, saved := s.limits :: s.saved }

/-- Comes back to the limits from before the last ones entered. -/
def exitLimits (s : Session) : Option Session :=
  match s.saved with
  | limits :: saved => some { s with limits, saved }
  | [] => none

def openProfile (s : Session) : Session := { s with profiles := .empty :: s.profiles }

def closeProfile (s : Session) : Option (Profile × Session) :=
  match s.profiles with
  | p :: profiles => some (p, { s with profiles })
  | [] => none

def countLine (s : Session) (line : Text) (run : LineRun M) : Session :=
  match s.profiles with
  | p :: profiles => { s with profiles := p.count line run :: profiles }
  | [] => s

def tokenizeLine (s : Session) (g : Grammar M) (line : Text) (stack : Stack M) :
    LineRun M × Session :=
  let run := g.tokenizeLine s.limits line stack
  (run, s.countLine line run)

end Session

namespace Session

def tokenizeLines (s : Session) (g : Grammar M) (lines : List Text) (stack : Stack M) :
    LinesRun M × Session :=
  let runs := g.lineRuns s.limits lines stack
  (.ofRuns runs, (lines.zip runs).foldl (fun s (line, run) => s.countLine line run) s)

end Session

end LineScope
