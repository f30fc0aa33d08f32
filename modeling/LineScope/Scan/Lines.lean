import LineScope.Scan.Resume

/-!
Scanning lines one after the other, each from the stack that the one before ends with.
-/

namespace LineScope

variable {M : Type}

/-- The scans of lines, up to the first that fails. -/
def Grammar.lineRuns (g : Grammar M) (limits : Limits) :
    List Text → Stack M → List (LineRun M)
  | [], _ => []
  | line :: rest, stack =>
    let run := g.tokenizeLine limits line stack
    run ::
      match run.result with
      | .ok r => lineRuns g limits rest r.stack
      | .error _ => []

structure LinesRun (M : Type) where
  /-- The results up to the first fault. -/
  results : List (LineResult M)
  fault : Option Fault
  events : List Event

namespace LinesRun

def ofRuns : List (LineRun M) → LinesRun M
  | [] => ⟨[], none, []⟩
  | run :: rest =>
    match run.result with
    | .error fault => ⟨[], some fault, run.events⟩
    | .ok r =>
      let more := ofRuns rest
      ⟨r :: more.results, more.fault, run.events ++ more.events⟩

def endStack (l : LinesRun M) (start : Stack M) : Stack M :=
  match l.results.getLast? with
  | some r => r.stack
  | none => start

end LinesRun

def Grammar.tokenizeLines (g : Grammar M) (limits : Limits) (lines : List Text) (stack : Stack M) :
    LinesRun M :=
  .ofRuns (g.lineRuns limits lines stack)

end LineScope
