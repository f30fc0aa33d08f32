import LineScope.Grammar.Basic

namespace LineScope

inductive Flaw where
  | documentNotMapping
  | noScopeName
  | repositoryNotMapping
  | entryNotMapping
  | patternsNotList
  | ruleNotMapping
  | emptyRule
  | includeNotString
  | patternNotString
  | noEnd
  | scopeNotString
  | capturesNotMapping
  | captureKeyNoIndex (key : String)
  | captureKeyNegative (key : String)
  | notJson (report : String)
  | documentNotObject
  /-- A flaw told in free words. -/
  | other (message : String)
deriving DecidableEq, Repr

open Text in
def Flaw.message : Flaw → String
  | .documentNotMapping => "grammar document must be a mapping"
  | .noScopeName => "grammar has no scopeName"
  | .repositoryNotMapping => "repository must be a mapping"
  | .entryNotMapping => "repository entry must be a mapping"
  | .patternsNotList => "patterns must be a list"
  | .ruleNotMapping => "rule must be a mapping"
  | .emptyRule => "rule has no match, begin, include or patterns"
  | .includeNotString => "include must be a string"
  | .patternNotString => "pattern must be a string"
  | .noEnd => "begin rule has no end pattern"
  | .scopeNotString => "scope name must be a string"
  | .capturesNotMapping => "captures must be a mapping"
  | .captureKeyNoIndex key => s!"capture key {quoted key} is not a group index"
  | .captureKeyNegative key => s!"capture key {quoted key} is negative"
  | .notJson report => s!"invalid JSON: {report}"
  | .documentNotObject => "grammar document must be a JSON object"
  | .other message => message

/-- Where in a grammar something is wrong: a context, and the place of a rule in it. -/
structure Place where
  context : Option String
  rule : Option Int
deriving DecidableEq, Repr

namespace Place

def nowhere : Place := ⟨none, none⟩

def inContext (context : ContextName) : Place := ⟨some context.text, none⟩

def ofRule (context : ContextName) (rule : Nat) : Place := ⟨some context.text, some rule⟩

def locate (p : Place) (message : String) : String :=
  match p.context, p.rule with
  | some context, some rule => s!"{context}[{rule}]: {message}"
  | some context, none => s!"{context}: {message}"
  | none, _ => message

end Place

namespace Grammar

inductive Error where
  | flaw (flaw : Flaw) (place : Place)
  | invalidPattern (source reason : String) (place : Place)
  | unresolved (reference : String) (context : Option String)
  /-- Includes that lead back to the first of a chain of contexts. -/
  | cyclic (chain : List String)
  /-- The engine could not count as far as a pattern asks. -/
  | overflow (reason : String)
deriving DecidableEq, Repr

namespace Error

def place : Error → Place
  | .flaw _ place | .invalidPattern _ _ place => place
  | .unresolved _ context => ⟨context, none⟩
  | .cyclic chain => ⟨chain.head?, none⟩
  | .overflow _ => .nowhere

def message (e : Error) : String :=
  e.place.locate <|
    match e with
    | .flaw f _ => f.message
    | .invalidPattern source reason _ => s!"invalid pattern {Text.quoted source}: {reason}"
    | .unresolved reference _ => s!"unresolved include {Text.quoted reference}"
    | .cyclic chain => "cyclic include " ++ " -> ".intercalate chain
    | .overflow reason => reason

end Error

end Grammar

end LineScope
