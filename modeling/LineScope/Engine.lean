import LineScope.Pattern.Matching
import LineScope.Pattern.Reader

/-!
Search engines. Grammars and scans need of an engine only that it compiles a source text to a
matcher and finds the first match of a matcher at or after an offset.
-/

namespace LineScope

structure Span where
  start : Int
  stop : Int
deriving DecidableEq, Repr

/-- A match of a whole pattern, with the span of each group, group 0 first; a group that took no
part has none. -/
structure Match where
  start : Int
  stop : Int
  groups : List (Option Span)
deriving DecidableEq, Repr

def Match.isEmpty (m : Match) : Bool := m.start == m.stop

inductive Refusal where
  /-- The source is no pattern of the engine. -/
  | rejected (reason : String)
  /-- A number in the source is beyond what the engine can count to. -/
  | overflow (reason : String)
deriving DecidableEq, Repr

structure Engine (M : Type) where
  compile : String → Except Refusal M
  search : M → Text → Int → Option Match

inductive Matcher where
  | pattern (p : Pattern)
  | plain (wanted : Text)
deriving Repr

namespace Matcher

def startIn (text : Text) (start : Int) : Nat := min start.toNat text.size

def ofPattern (source : String) : Except Refusal Matcher :=
  match Pattern.ofChars source.toList with
  | .ok p => .ok (.pattern p)
  | .error problem =>
    let report := problem.report source.toList
    match problem.mistake with
    | .hugeRepeat => .error (.overflow report)
    | _ => .error (.rejected report)

def groupsOf (start : Nat) (p : Pattern.Progress) : List (Option Span) :=
  some ⟨start, p.pos⟩ :: p.marks.map fun
    | ⟨some a, some b⟩ => some ⟨a, b⟩
    | _ => none

def searchPattern (p : Pattern) (text : Text) (start : Int) : Option Match :=
  let origin := startIn text start
  (Pattern.firstMatch p text (text.size - origin + 1) origin).map fun (place, progress) =>
    ⟨place, progress.pos, groupsOf place progress⟩

/-- The first of `count` places from `pos` on where the wanted text stands. -/
def firstPlace (wanted text : Text) : Nat → Nat → Option Nat
  | 0, _ => none
  | count + 1, pos =>
    if text.extract pos (pos + wanted.size) == wanted then some pos
    else firstPlace wanted text count (pos + 1)

/-- Finds the wanted text at or after an offset; an offset below zero counts from the end. -/
def searchPlain (wanted text : Text) (start : Int) : Option Match :=
  let origin := if start < 0 then (start + text.size).toNat else start.toNat
  (firstPlace wanted text (text.size + 1 - origin) origin).map fun place =>
    let stop : Int := place + wanted.size
    ⟨place, stop, [some ⟨place, stop⟩]⟩

def search : Matcher → Text → Int → Option Match
  | .pattern p => searchPattern p
  | .plain wanted => searchPlain wanted

end Matcher

namespace Engine

def pattern : Engine Matcher := ⟨Matcher.ofPattern, Matcher.search⟩

/-- The engine that looks for a text as it stands. It rejects texts with a reserved character. -/
def plain (reserved : Char → Bool) (reason : String) : Engine Matcher where
  compile source :=
    if source.toList.any reserved then .error (.rejected reason)
    else .ok (.plain (.ofString source))
  search := Matcher.search

end Engine

end LineScope
