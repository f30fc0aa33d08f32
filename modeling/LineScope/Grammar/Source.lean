import LineScope.Grammar.Expansion
import LineScope.Json.Reader
import LineScope.Text.Lines

namespace LineScope.Grammar

inductive SourceError where
  | grammar (e : Error)
  /-- The text holds a number with more digits than are read. -/
  | tooManyDigits (count : Nat)
  | noFile (path : String)
deriving DecidableEq, Repr

def SourceError.message : SourceError → String
  | .grammar e => e.message
  | .tooManyDigits count => Text.tooManyDigits count
  | .noFile path => s!"[Errno 2] No such file or directory: {Text.quoted path}"

def documentOfText (origin : Option String) (text : List Char) : Except SourceError Json :=
  match Json.ofChars text with
  | .ok (.obj members) => .ok (.obj members)
  | .ok _ => .error (.grammar (.flaw .documentNotObject ⟨origin, none⟩))
  | .error (.tooManyDigits count) => .error (.tooManyDigits count)
  | .error problem => .error (.grammar (.flaw (.notJson (problem.report text)) ⟨origin, none⟩))

/-- The document of a file with the given content. Whatever ends its lines is read as a line
feed. -/
def documentOfFile (path : String) (content : List Char) : Except SourceError Json :=
  documentOfText (some path) (Text.unifyLineBreaks content)

variable {M : Type}

def ofText (e : Engine M) (text : List Char) : Except SourceError (Grammar M) := do
  let document ← documentOfText none text
  (ofJson e document).mapError .grammar

def ofFile (e : Engine M) (path : String) (content : List Char) :
    Except SourceError (Grammar M) := do
  let document ← documentOfFile path content
  (ofJson e document).mapError .grammar

end LineScope.Grammar
