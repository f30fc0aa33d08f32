/-!
Texts as arrays of characters. Offsets count characters; a signed offset below zero counts from
the end, and a slice clips its offsets to the text.
-/

namespace LineScope

/-- A line, or any other text that offsets point into. -/
abbrev Text := Array Char

/-- The place in a sequence of length `n` that a signed offset of a slice stands for. -/
def clip (n : Nat) (i : Int) : Nat :=
  if i < 0 then (i + n).toNat else min i.toNat n

theorem clip_ofNat {n k : Nat} (h : k ≤ n) : clip n k = k := by
  unfold clip
  split <;> omega

/-- The element at a signed index. -/
def atSigned? {α : Type} (xs : List α) (i : Int) : Option α :=
  if i < 0 then
    if i + xs.length < 0 then none else xs[(i + xs.length).toNat]?
  else xs[i.toNat]?

namespace Text

def ofString (s : String) : Text := s.toList.toArray

def toString (t : Text) : String := String.ofList t.toList

/-- The part of a text from one signed offset up to another; empty when they are out of order. -/
def slice (t : Text) (start stop : Int) : Text :=
  t.extract (clip t.size start) (clip t.size stop)

end Text

end LineScope
