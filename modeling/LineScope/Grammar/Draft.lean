import LineScope.Grammar.Declaration
import LineScope.BackReference

/-!
Drafts of grammars: all rules compiled and numbered, and for every context its rules and the
includes that are still to be replaced. Contexts are drafted in order, those inside regions after
the others as their regions come up.
-/

namespace LineScope

variable {M : Type}

inductive Entry (M : Type) where
  | rule (r : Rule M)
  | include (target : ContextName)

structure DraftContext (M : Type) where
  name : ContextName
  entries : List (Entry M)

/-- What has been compiled, and the contexts inside regions that are still to be drafted. -/
structure Draft (M : Type) where
  /-- The rules so far, each at the place of its number. -/
  rules : List (Rule M)
  /-- The contexts to draft, in order. -/
  waiting : List DeclaredContext

namespace Draft

open Grammar

def pattern (e : Engine M) (place : Place) (source : String) : Except Error M :=
  match e.compile source with
  | .ok m => .ok m
  | .error (.rejected reason) => .error (.invalidPattern source reason place)
  | .error (.overflow reason) => .error (.overflow reason)

def sourceOf (place : Place) : Json → Except Error String
  | .str s => .ok s
  | _ => .error (.flaw .patternNotString place)

/-- The matcher for the end of a region. An end that refers to the begin match has none; that it
is well formed is checked with the references left out. -/
def closer (e : Engine M) (place : Place) (source : String) : Except Error (Option M) :=
  if BackReference.occursIn source then do
    let _ ← pattern e place (BackReference.blank source)
    return none
  else do
    let m ← pattern e place source
    return some m

/-- A scope name; one of white space alone is none. -/
def scope (place : Place) : Json → Except Error (Option String)
  | .null => .ok none
  | .str s => .ok (if (Text.trim s).isEmpty then none else some (Text.trim s))
  | _ => .error (.flaw .scopeNotString place)

def captureGroup (place : Place) (key : String) : Except Error Nat :=
  match Text.wholeNumber? key with
  | none => .error (.flaw (.captureKeyNoIndex key) place)
  | some n =>
    if n < 0 then .error (.flaw (.captureKeyNegative key) place) else .ok n.toNat

/-- The scope that a member of a capture map gives: a text, or the name of an object. -/
def captureScope (place : Place) : Json → Except Error (Option String)
  | .obj members => scope place (Declaration.field members "name")
  | value => scope place value

def captureList (place : Place) : List (String × Json) → Except Error (List Capture)
  | [] => .ok []
  | (key, value) :: rest => do
    let group ← captureGroup place key
    let scope? ← captureScope place value
    let more ← captureList place rest
    return match scope? with
      | some scope => ⟨group, scope⟩ :: more
      | none => more

def captures (place : Place) : Json → Except Error (List Capture)
  | .null => .ok []
  | .obj members => (captureList place members).map Capture.sort
  | _ => .error (.flaw .capturesNotMapping place)

def leaf (e : Engine M) (place : Place) (id : Nat) (f : MatchFields) :
    Except Error (MatchRule M) := do
  let source ← sourceOf place f.source
  let matcher ← pattern e place source
  let scope ← scope place f.name
  let captures ← captures place f.captures
  return { id, source, matcher, scope, captures }

def endGiven (place : Place) : Json → Except Error Json
  | .null => .error (.flaw .noEnd place)
  | value => .ok value

def region (e : Engine M) (place : Place) (id : Nat) (f : RegionFields) :
    Except Error (RegionRule M) := do
  let ending ← endGiven place f.endSource
  let beginSource ← sourceOf place f.beginSource
  let opener ← pattern e place beginSource
  let endSource ← sourceOf place ending
  let closer ← closer e place endSource
  let scope ← Draft.scope place f.name
  let contentScope ← Draft.scope place f.contentName
  let beginCaptures ← captures place f.beginCaptures
  let endCaptures ← captures place f.endCaptures
  return {
    id, beginSource, opener, endSource, closer, scope, contentScope, beginCaptures, endCaptures
    endLast := f.endLast }

def addLeaf (d : Draft M) (r : MatchRule M) : Draft M := { d with rules := d.rules ++ [.leaf r] }

def addRegion (d : Draft M) (r : RegionRule M) (inner : List Declaration) : Draft M where
  rules := d.rules ++ [.region r]
  waiting := d.waiting ++ [⟨r.inner, inner⟩]

def includeOf (b : Blueprint) (context : ContextName) : Json → Except Error (Entry M)
  | .str reference =>
    match b.target? reference with
    | some target => .ok (.include target)
    | none => .error (.unresolved reference (some context.text))
  | _ => .error (.flaw .includeNotString (.inContext context))

def listed (context : ContextName) :
    Option (List Declaration) → Except Error (List Declaration)
  | some members => .ok members
  | none => .error (.flaw .patternsNotList (.inContext context))

mutual

/-- The entries of a declaration at a place in a context; a group has those of all its members. -/
def declaration (e : Engine M) (b : Blueprint) (context : ContextName) (index : Nat) :
    Declaration → Draft M → Except Error (List (Entry M) × Draft M)
  | .malformed, _ => .error (.flaw .ruleNotMapping (.ofRule context index))
  | .empty, _ => .error (.flaw .emptyRule (.ofRule context index))
  | .include reference, d => do
    let entry ← includeOf b context reference
    return ([entry], d)
  | .leaf fields, d => do
    let r ← leaf e (.ofRule context index) d.rules.length fields
    return ([.rule (.leaf r)], d.addLeaf r)
  | .region fields inner, d => do
    let r ← region e (.ofRule context index) d.rules.length fields
    let inner ← listed r.inner inner
    return ([.rule (.region r)], d.addRegion r inner)
  | .group none, _ => .error (.flaw .patternsNotList (.inContext context))
  | .group (some members), d => group e b context index members d

def group (e : Engine M) (b : Blueprint) (context : ContextName) (index : Nat) :
    List Declaration → Draft M → Except Error (List (Entry M) × Draft M)
  | [], d => .ok ([], d)
  | first :: rest, d => do
    let (entries, d) ← declaration e b context index first d
    let (more, d) ← group e b context index rest d
    return (entries ++ more, d)

end

def members (e : Engine M) (b : Blueprint) (context : ContextName) :
    Nat → List Declaration → Draft M → Except Error (List (Entry M) × Draft M)
  | _, [], d => .ok ([], d)
  | index, first :: rest, d => do
    let (entries, d) ← declaration e b context index first d
    let (more, d) ← members e b context (index + 1) rest d
    return (entries ++ more, d)

/-- Drafts the contexts that wait, and those that come up. The fuel bounds their number. -/
def contexts (e : Engine M) (b : Blueprint) :
    Nat → Draft M → Except Error (List (DraftContext M) × List (Rule M))
  | 0, d => .ok ([], d.rules)
  | fuel + 1, d =>
    match d.waiting with
    | [] => .ok ([], d.rules)
    | c :: waiting => do
      let (entries, d) ← members e b c.name 0 c.members { d with waiting }
      let (more, rules) ← contexts e b fuel d
      return (⟨c.name, entries⟩ :: more, rules)

end Draft

mutual

/-- How many regions a declaration holds, at any depth. -/
def Declaration.regions : Declaration → Nat
  | .region _ (some inner) => Declaration.regionsAmong inner + 1
  | .region _ none => 1
  | .group (some members) => Declaration.regionsAmong members
  | _ => 0

def Declaration.regionsAmong : List Declaration → Nat
  | [] => 0
  | first :: rest => first.regions + Declaration.regionsAmong rest

end

/-- How many contexts come of declared ones: these, and one for every region. -/
def DeclaredContext.count : List DeclaredContext → Nat
  | [] => 0
  | c :: rest => Declaration.regionsAmong c.members + 1 + count rest

def Blueprint.draft (e : Engine M) (b : Blueprint) :
    Except Grammar.Error (List (DraftContext M) × List (Rule M)) :=
  Draft.contexts e b (DeclaredContext.count b.contexts) ⟨[], b.contexts⟩

end LineScope
