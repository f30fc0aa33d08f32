import LineScope.Grammar.Error
import LineScope.Json.Basic

/-!
Grammar documents as declarations: what a document says, before patterns are compiled and includes
resolved. A part of the document that has the wrong form is kept as such and refused only when the
compilation comes to it.
-/

namespace LineScope

structure MatchFields where
  source : Json
  name : Json
  captures : Json

structure RegionFields where
  beginSource : Json
  endSource : Json
  name : Json
  contentName : Json
  beginCaptures : Json
  endCaptures : Json
  endLast : Bool

/-- A member of a list of patterns; where a list is wanted and something else is given there is
none. -/
inductive Declaration where
  | malformed
  | empty
  | include (reference : Json)
  | leaf (fields : MatchFields)
  | region (fields : RegionFields) (inner : Option (List Declaration))
  | group (members : Option (List Declaration))

namespace Declaration

open Json

def field (members : Members) (key : String) : Json := (members.get? key).getD .null

def matchFields (members : Members) : MatchFields where
  source := field members "match"
  name := field members "name"
  captures := field members "captures"

/-- The captures serve begin and end alike unless these have their own. -/
def regionFields (members : Members) : RegionFields where
  beginSource := field members "begin"
  endSource := field members "end"
  name := field members "name"
  contentName := field members "contentName"
  beginCaptures := (members.get? "beginCaptures").getD (field members "captures")
  endCaptures := (members.get? "endCaptures").getD (field members "captures")
  endLast := (field members "applyEndPatternLast").isTrue

/-- What a declaration is, by the first that it has of include, match, begin and patterns. -/
def classify (members : Members) (patterns : Option (List Declaration)) : Declaration :=
  match members.get? "include" with
  | some reference => .include reference
  | none =>
    if members.has "match" then .leaf (matchFields members)
    else if members.has "begin" then .region (regionFields members) patterns
    else if members.has "patterns" then .group patterns
    else .empty

mutual

def ofJson : Json → Declaration
  | .obj members => classify members (patternsIn members)
  | _ => .malformed

def patternsIn : List (String × Json) → Option (List Declaration)
  | [] => some []
  | (key, value) :: rest => if key == "patterns" then listOf value else patternsIn rest

def listOf : Json → Option (List Declaration)
  | .null => some []
  | .arr items => some (ofItems items)
  | _ => none

def ofItems : List Json → List Declaration
  | [] => []
  | item :: rest => ofJson item :: ofItems rest

end

end Declaration

structure DeclaredContext where
  name : ContextName
  members : List Declaration

/-- A grammar as it is declared: the root context first, then the repository. -/
structure Blueprint where
  scopeName : String
  name : Option String
  contexts : List DeclaredContext

namespace Blueprint

open Json

def patternsOf (members : Members) (context : ContextName) :
    Except Grammar.Error (List Declaration) :=
  match Declaration.patternsIn members with
  | some declarations => .ok declarations
  | none => .error (.flaw .patternsNotList (.inContext context))

/-- An entry of the repository: a rule of its own, or a list of patterns. -/
def entry (key : String) : Json → Except Grammar.Error DeclaredContext
  | .obj members =>
    if ["match", "begin", "include"].any (Members.has members) then
      .ok ⟨.entry key, [Declaration.ofJson (.obj members)]⟩
    else (patternsOf members (.entry key)).map (⟨.entry key, ·⟩)
  | _ => .error (.flaw .entryNotMapping (.inContext (.entry key)))

def entries : Members → Except Grammar.Error (List DeclaredContext)
  | [] => .ok []
  | (key, value) :: rest => do
    let first ← entry key value
    let more ← entries rest
    return first :: more

/-- The repository of a document; one that counts as false is empty. -/
def repository (members : Members) : Except Grammar.Error (List DeclaredContext) :=
  let value := Declaration.field members "repository"
  if value.isTrue then
    match value with
    | .obj found => entries found
    | _ => .error (.flaw .repositoryNotMapping .nowhere)
  else .ok []

def scopeNameOf (members : Members) : Except Grammar.Error String :=
  match members.get? "scopeName" with
  | some (.str s) => if s.isEmpty then .error (.flaw .noScopeName .nowhere) else .ok s
  | _ => .error (.flaw .noScopeName .nowhere)

def ofJson : Json → Except Grammar.Error Blueprint
  | .obj members => do
    let scopeName ← scopeNameOf members
    let root ← patternsOf members .root
    let entries ← repository members
    return {
      scopeName
      name := (Declaration.field members "name").str?
      contexts := ⟨.root, root⟩ :: entries }
  | _ => .error (.flaw .documentNotMapping .nowhere)

/-- The context that an include refers to: the root, or an entry of the repository. -/
def target? (b : Blueprint) (reference : String) : Option ContextName :=
  if reference == "$self" || reference == "$base" then some .root
  else
    (b.contexts.find? fun c => c.name != .root && c.name.text == reference).map (·.name)

end Blueprint

end LineScope
