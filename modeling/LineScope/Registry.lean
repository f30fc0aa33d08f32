import LineScope.Event
import LineScope.Grammar.Expansion
import LineScope.Json.Display
import LineScope.Json.Fingerprint

/-!
Registries: grammars by scope name, compiled once and kept. A registry asks a loader for the
document of a scope that it does not hold; the loader may use the registry in turn before it
answers.
-/

namespace LineScope

variable {M : Type}

structure Registered (M : Type) where
  grammar : Grammar M
  /-- Tells the grammars apart that the registry has compiled, in the order of compilation. -/
  serial : Nat

inductive LoadError where
  | grammar (e : Grammar.Error)
  | registry (scopeName message : String)
  /-- A document with an integer that cannot be written has no fingerprint. -/
  | unwritable
deriving DecidableEq, Repr

def LoadError.registryMessage (scopeName message : String) : String :=
  s!"Grammar '{scopeName}': {message}"

def LoadError.message : LoadError → String
  | .grammar e => e.message
  | .registry scopeName message => registryMessage scopeName message
  | .unwritable => Text.unwritable

inductive Answer where
  | fails (message : String)
  | document (d : Json)
  | nothing

/-- What a loader does when it is asked for a scope: requests to the registry, and an answer in the
end. A request to load holds what the loader would do for it, and what follows may depend on the
result. -/
inductive Script (M : Type) where
  | answer (a : Answer)
  | add (document : Json) (next : Except LoadError (Registered M) → Script M)
  | load (scopeName : String) (nested : Unit → Script M)
      (next : Except LoadError (Option (Registered M)) → Script M)

/-- A registry, with what can be observed of its use. -/
structure Registry (M : Type) where
  engine : Engine M
  table : List (String × Registered M)
  /-- The fingerprints of the documents that the grammars come from. -/
  fingerprints : List (String × String)
  /-- How many grammars have been compiled. -/
  compiled : Nat
  /-- The scopes that the loader was asked for. -/
  calls : List String
  events : List Event

namespace Registry

def empty (e : Engine M) : Registry M := ⟨e, [], [], 0, [], []⟩

def get? (r : Registry M) (scopeName : String) : Option (Registered M) := r.table.lookup scopeName

def has (r : Registry M) (scopeName : String) : Bool := (r.get? scopeName).isSome

def record (r : Registry M) (e : Event) : Registry M := { r with events := r.events ++ [e] }

/-- Puts a value under a name, in the place of one that was there. -/
def put {α : Type} (table : List (String × α)) (name : String) (value : α) : List (String × α) :=
  if table.any (·.1 == name) then table.map fun e => if e.1 == name then (name, value) else e
  else table ++ [(name, value)]

def fingerprintOf (document : Json) : Except LoadError String :=
  if document.isWritable then .ok (document.fingerprint Json.fingerprintLength)
  else .error .unwritable

def store (r : Registry M) (g : Registered M) (fingerprint : String) : Registry M := {
  r with
  table := put r.table g.grammar.scopeName g
  fingerprints := put r.fingerprints g.grammar.scopeName fingerprint }

/-- Compiles a document; the grammar is not kept yet. -/
def compile (r : Registry M) (document : Json) :
    Except LoadError (Registered M) × Registry M :=
  match Grammar.ofJson r.engine document with
  | .error e => (.error (.grammar e), r)
  | .ok g =>
    let r' := r.record (.compiled g.scopeName g.contexts.length g.rules.length)
    (.ok ⟨g, r.compiled⟩, { r' with compiled := r.compiled + 1 })

def scopeNameOf : Json → Json
  | .obj members => Declaration.field members "scopeName"
  | _ => .null

def known? (r : Registry M) (document : Json) (fingerprint : String) : Option (Registered M) :=
  match scopeNameOf document with
  | .str name => if r.fingerprints.lookup name = some fingerprint then r.get? name else none
  | _ => none

/-- Compiles a document and keeps the grammar, unless it is held already. The fingerprint comes
first: a document without one is not compiled. -/
def add (r : Registry M) (document : Json) : Except LoadError (Registered M) × Registry M :=
  match fingerprintOf document with
  | .error e => (.error e, r)
  | .ok fingerprint =>
    match r.known? document fingerprint with
    | some g => (.ok g, r)
    | none =>
      match r.compile document with
      | (.error e, r) => (.error e, r)
      | (.ok g, r) => (.ok g, r.store g fingerprint)

/-- Takes the document that a loader gave for a scope. Here the fingerprint comes last: a document
without one is compiled, but its grammar is not kept. -/
def accept (r : Registry M) (scopeName : String) (document : Json) :
    Except LoadError (Registered M) × Registry M :=
  match document with
  | .obj members =>
    match Declaration.field members "scopeName" with
    | .str name =>
      if name == scopeName then
        match r.compile document with
        | (.error e, r) => (.error e, r)
        | (.ok g, r) =>
          match fingerprintOf document with
          | .error e => (.error e, r)
          | .ok fingerprint => (.ok g, (r.store g fingerprint).record (.loaded scopeName))
      else (.error (mismatch scopeName (.str name)), r)
    | other => (.error (mismatch scopeName other), r)
  | _ => (.error (.registry scopeName "loader did not return a mapping"), r)
where
  /-- The complaint about a document for another scope, if what it names can be told. -/
  mismatch (scopeName : String) (found : Json) : LoadError :=
    if found.isWritable then
      .registry scopeName s!"loader returned a grammar for {found.display}"
    else .unwritable

def conclude (r : Registry M) (scopeName : String) :
    Answer → Except LoadError (Option (Registered M)) × Registry M
  | .fails message => (.error (.registry scopeName s!"loader failed: {message}"), r)
  | .nothing | .document .null => (.ok none, r.record (.unknownScope scopeName))
  | .document d =>
    match r.accept scopeName d with
    | (.ok g, r) => (.ok (some g), r)
    | (.error e, r) => (.error e, r)

def ask (r : Registry M) (scopeName : String) : Registry M :=
  { r with calls := r.calls ++ [scopeName] }

def run : Script M → Registry M → Answer × Registry M
  | .answer a, r => (a, r)
  | .add document next, r =>
    let (result, r) := r.add document
    run (next result) r
  | .load scopeName nested next, r =>
    match r.get? scopeName with
    | some g => run (next (.ok (some g))) r
    | none =>
      let (a, r) := run (nested ()) (r.ask scopeName)
      let (result, r) := r.conclude scopeName a
      run (next result) r

/-- The grammar for a scope. If the registry does not hold it, the loader, if there is one, is
asked, and does what the script says. -/
def load (r : Registry M) (scopeName : String) (loader : Option (Script M)) :
    Except LoadError (Option (Registered M)) × Registry M :=
  match r.get? scopeName with
  | some g => (.ok (some g), r)
  | none =>
    match loader with
    | none => r.conclude scopeName .nothing
    | some script =>
      let (a, r) := run script (r.ask scopeName)
      r.conclude scopeName a

def names (r : Registry M) : List String :=
  (Json.sortMembers (r.table.map fun e => (e.1, Json.null))).map (·.1)

end Registry

/-- What a loader does for one scope: requests to load and to add, and then its answer. An error of
a request is passed on. -/
structure LoaderEntry where
  loads : List String
  adds : List Json
  answer : Answer

namespace LoaderEntry

/-- The requests of an entry as a script, where `nested` is what the loader does for a scope. -/
def script (nested : String → Unit → Script M) (answer : Answer) :
    List String → List Json → Script M
  | scopeName :: loads, adds =>
    .load scopeName (nested scopeName) fun
      | .ok _ => script nested answer loads adds
      | .error e => .answer (.fails e.message)
  | [], document :: adds =>
    .add document fun
      | .ok _ => script nested answer [] adds
      | .error e => .answer (.fails e.message)
  | [], [] => .answer answer

end LoaderEntry

def Script.ofTable (table : List (String × LoaderEntry)) : Nat → String → Script M
  | 0, _ => .answer (.fails "maximum recursion depth exceeded")
  | depth + 1, scopeName =>
    match table.lookup scopeName with
    | none => .answer .nothing
    | some entry =>
      LoaderEntry.script (fun nested _ => Script.ofTable table depth nested) entry.answer
        entry.loads entry.adds

end LineScope
