import LineScope.Text.Words

/-!
Scope paths: the names that say what a piece of text is, the most general name first.
-/

namespace LineScope

abbrev ScopePath := List String

namespace ScopePath

/-- Adds a scope to a path; a scope of several words adds each of them. -/
def extend (path : ScopePath) : Option String → ScopePath
  | some scope => path ++ Text.words scope
  | none => path

@[simp] theorem extend_none (path : ScopePath) : path.extend none = path := rfl

theorem extend_some (path : ScopePath) (scope : String) :
    path.extend (some scope) = path ++ Text.words scope := rfl

end ScopePath

end LineScope
