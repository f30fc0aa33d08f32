import LineScope.Grammar.Draft

/-!
Expansion of includes: the entries of a context with every include replaced by the rules of the
context that it names, and so on. What has been expanded once is kept. An include that leads back
to a context under expansion is refused.
-/

namespace LineScope.Expansion

open Grammar

variable {M : Type}

abbrev Done (M : Type) := List (ContextName × List (Rule M))

def entriesOf (drafts : List (DraftContext M)) (name : ContextName) : List (Entry M) :=
  match drafts.find? (·.name == name) with
  | some d => d.entries
  | none => []

/-- The chain of a cycle: the path from the first visit of a context, and the context again. -/
def cycle (path : List ContextName) (name : ContextName) : List String :=
  (path.dropWhile (· != name) ++ [name]).map ContextName.text

/-- The rules of entries, where `expand` gives those of a context. -/
def flatten (expand : ContextName → Done M → Except Error (List (Rule M) × Done M)) :
    List (Entry M) → Done M → Except Error (List (Rule M) × Done M)
  | [], done => .ok ([], done)
  | .rule r :: rest, done => do
    let (more, done) ← flatten expand rest done
    return (r :: more, done)
  | .include target :: rest, done => do
    let (rules, done) ← expand target done
    let (more, done) ← flatten expand rest done
    return (rules ++ more, done)

/-- The rules of a context. `path` holds the contexts under expansion, outermost first; they are
distinct, so the fuel, one more than the contexts there are, does not run out. -/
def context (drafts : List (DraftContext M)) :
    Nat → List ContextName → ContextName → Done M → Except Error (List (Rule M) × Done M)
  | 0, path, name, _ => .error (.cyclic (cycle path name))
  | fuel + 1, path, name, done =>
    match done.lookup name with
    | some rules => .ok (rules, done)
    | none =>
      if path.contains name then .error (.cyclic (cycle path name))
      else do
        let (rules, done) ←
          flatten (context drafts fuel (path ++ [name])) (entriesOf drafts name) done
        return (rules, (name, rules) :: done)

def contexts (drafts : List (DraftContext M)) :
    List ContextName → Done M → Except Error (List (Context M))
  | [], _ => .ok []
  | name :: rest, done => do
    let (rules, done) ← context drafts (drafts.length + 1) [] name done
    let more ← contexts drafts rest done
    return ⟨name, rules⟩ :: more

def all (drafts : List (DraftContext M)) : Except Error (List (Context M)) :=
  contexts drafts (drafts.map (·.name)) []

end LineScope.Expansion

namespace LineScope.Grammar

variable {M : Type}

/-- Compiles a document with an engine. -/
def ofJson (e : Engine M) (document : Json) : Except Error (Grammar M) := do
  let blueprint ← Blueprint.ofJson document
  let (drafts, rules) ← blueprint.draft e
  let contexts ← Expansion.all drafts
  return { scopeName := blueprint.scopeName, name := blueprint.name, contexts, rules, engine := e }

end LineScope.Grammar
