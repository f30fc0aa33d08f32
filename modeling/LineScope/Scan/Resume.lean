import LineScope.Scan.Basic

/-!
Resuming from the stack of an earlier line. The matchers for the ends are always those of the
grammar at hand; a stack with a frame that does not belong to it is given up for the initial one.
-/

namespace LineScope.Stack

variable {M : Type}

/-- Why a frame is not resumed. -/
inductive Refused where
  | foreign (context : String)
  | overflow (reason : String)
deriving DecidableEq, Repr

/-- The matcher that a grammar has for the end of a region, if any. -/
def closerFor (g : Grammar M) (f : Frame M) : Except Refused (Option M) :=
  match g.region? f.rule with
  | none => .ok none
  | some r =>
    match r.closer with
    | some closer => .ok (if f.endSource = r.endSource then some closer else none)
    | none =>
      match g.engine.compile f.endSource with
      | .ok closer => .ok (some closer)
      | .error (.rejected _) => .ok none
      | .error (.overflow reason) => .error (.overflow reason)

/-- Whether the context and the scopes of a frame are those that a rule of the grammar gives. -/
def fits (g : Grammar M) (f : Frame M) : Bool :=
  match g.region? f.rule with
  | none => false
  | some r =>
    r.inner.text == f.context && (g.context? f.context).isSome &&
      f.nameScopes.head? == some g.scopeName

def resumeFrame (g : Grammar M) (f : Frame M) : Except Refused (Frame M) := do
  match ← closerFor g f with
  | some closer =>
    if fits g f then .ok { f with closer := some closer } else .error (.foreign f.context)
  | none => .error (.foreign f.context)

def resumeAll (g : Grammar M) : Stack M → Except Refused (Stack M)
  | [] => .ok []
  | f :: outer => do
    let outer ← resumeAll g outer
    let f ← resumeFrame g f
    return f :: outer

end LineScope.Stack

namespace LineScope

variable {M : Type}

structure LineResult (M : Type) where
  tokens : List Token
  stack : Stack M

structure LineRun (M : Type) where
  result : Except Fault (LineResult M)
  tally : Tally
  events : List Event

namespace Scan

def resume (g : Grammar M) (stack : Stack M) : Outcome M :=
  match stack.resumeAll g with
  | .ok stack => .ok (start stack)
  | .error (.foreign context) =>
    .ok ((start .initial).record (.foreignFrame context g.scopeName))
  | .error (.overflow reason) => .error (.overflow reason, start .initial)

/-- How many iterations a scan takes at most, if the engine finds matches in bounds: at each place,
one for every state and two more. With an engine that goes back before the cursor, a scan that would
end after more iterations is cut off as `endless` as well. -/
def fuel (g : Grammar M) (line : Text) (limits : Limits) (s : Scan M) : Nat :=
  (line.size + 1) * (max s.stack.depth limits.depth.toNat * g.regionCount + 2)

/-- The scan of a whole line; one that is too long becomes a single token. -/
def finish (g : Grammar M) (line : Text) (limits : Limits) (s : Scan M) : Outcome M :=
  match limits.length with
  | some limit =>
    if limit < line.size then .ok ((s.record (.lineTooLong line.size limit)).passTo g line.size)
    else run g line limits (fuel g line limits s) s
  | none => run g line limits (fuel g line limits s) s

def lineRun : Outcome M → LineRun M
  | .ok s => ⟨.ok ⟨s.tokens.reverse, s.stack⟩, s.tally, s.events.reverse⟩
  | .error (fault, s) => ⟨.error fault, s.tally, s.events.reverse⟩

end Scan

namespace Grammar

/-- Tokenizes a line, from the stack of the line before. -/
def tokenizeLine (g : Grammar M) (limits : Limits) (line : Text) (stack : Stack M) : LineRun M :=
  Scan.lineRun ((Scan.resume g stack).bind (Scan.finish g line limits))

end Grammar

end LineScope
