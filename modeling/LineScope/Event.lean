import LineScope.Text.Quoted

namespace LineScope

inductive Event where
  | lineTooLong (length limit : Int)
  | foreignFrame (context scopeName : String)
  | depthReached (limit : Int) (beginSource : String)
  | endRejected (endSource : String)
  | compiled (scopeName : String) (contexts rules : Nat)
  | retokenized (first last : Int)
  | unknownScope (scopeName : String)
  | loaded (scopeName : String)
deriving DecidableEq, Repr

namespace Event

inductive Level where
  | debug
  | warning
deriving DecidableEq, Repr

def Level.name : Level → String
  | .debug => "DEBUG"
  | .warning => "WARNING"

def level : Event → Level
  | .unknownScope _ => .warning
  | _ => .debug

def rootLog : String := "tessera"

/-- A log name, moved under the root log unless it is there. -/
def logName (name : String) : String :=
  if name == rootLog || (rootLog ++ ".").isPrefixOf name then name else rootLog ++ "." ++ name

def log : Event → String
  | .lineTooLong .. | .foreignFrame .. | .depthReached .. | .endRejected _ => logName "tokenizer"
  | .compiled .. => logName "compiler"
  | .retokenized .. => logName "document"
  | .unknownScope _ | .loaded _ => logName "registry"

open Text in
def message : Event → String
  | .lineTooLong length limit => s!"Line of {length} chars exceeds max_line_length {limit}"
  | .foreignFrame context scopeName =>
    s!"Frame {context} does not belong to {scopeName}; resuming from the initial state"
  | .depthReached limit beginSource =>
    s!"Stack depth limit {limit} reached; {quoted beginSource} does not open a region"
  | .endRejected endSource => s!"Bound end pattern {quoted endSource} failed to compile"
  | .compiled scopeName contexts rules =>
    s!"Compiled grammar {scopeName}: {contexts} contexts, {rules} rules"
  | .retokenized first last => s!"Re-tokenized lines {first}..{last}"
  | .unknownScope scopeName => s!"Unknown scope name: {scopeName}"
  | .loaded scopeName => s!"Loaded grammar {scopeName}"

end Event

end LineScope
