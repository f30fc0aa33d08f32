import LineScope.Json.Printer
import LineScope.Scan.Resume

namespace LineScope

variable {M : Type}

def Token.toJson (line : Option Text) (t : Token) : Json :=
  .obj <|
    [("start", .int t.start), ("end", .int t.stop), ("scopes", .arr (t.scopes.map .str))] ++
      match line with
      | some line => [("text", .str (t.text line).toString)]
      | none => []

namespace Snapshot

def tokens (line : Option Text) (tokens : List Token) : Json := .arr (tokens.map (·.toJson line))

def tokensText (line : Option Text) (indent : Option Int) (ts : List Token) : String :=
  (tokens line ts).print indent

/-- The tokens of a line and the contexts that are open after it, outermost first. -/
def result (line : Option Text) (r : LineResult M) : Json :=
  .obj [("tokens", tokens line r.tokens),
    ("stack", .arr (r.stack.reverse.map fun f => .str f.context))]

end Snapshot

end LineScope
