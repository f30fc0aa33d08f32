import LineScope.Pattern.Basic
import LineScope.Text.Basic

/-!
Searching a text for a pattern, by backtracking: alternatives are tried in order, and the first
way to match the whole pattern at the leftmost place wins.
-/

namespace LineScope.Pattern

/-- Where a group was last entered and last left. -/
structure Mark where
  opened : Option Nat
  closed : Option Nat
deriving DecidableEq, Repr

/-- How far a match has come, and the marks of the groups so far. -/
structure Progress where
  pos : Nat
  marks : List Mark
deriving DecidableEq, Repr

namespace Progress

def start (pos groups : Nat) : Progress := ⟨pos, List.replicate groups ⟨none, none⟩⟩

def enter (p : Progress) (group : Nat) : Progress :=
  { p with marks := p.marks.modify (group - 1) fun m => { m with opened := some p.pos } }

def leave (p : Progress) (group : Nat) : Progress :=
  { p with marks := p.marks.modify (group - 1) fun m => { m with closed := some p.pos } }

def captured? (p : Progress) (group : Nat) : Option (Nat × Nat) :=
  match p.marks[group - 1]? with
  | some ⟨some a, some b⟩ => if a ≤ b then some (a, b) else none
  | _ => none

end Progress

namespace Anchor

def wordAt (text : Text) (ascii : Bool) (i : Nat) : Bool :=
  match text[i]? with
  | some c => Category.word.holds ascii c
  | none => false

def holds (text : Text) (i : Nat) : Anchor → Bool
  | .textStart => i == 0
  | .lineStart => i == 0 || text[i - 1]? == some '\n'
  | .textEnd => i == text.size
  | .lineEnd => i == text.size || text[i]? == some '\n'
  | .lastLineEnd => i == text.size || (i + 1 == text.size && text[i]? == some '\n')
  | .wordEdge ascii negated =>
    text.size != 0 &&
      ((0 < i && wordAt text ascii (i - 1)) != wordAt text ascii i) != negated

end Anchor

abbrev Next := Progress → Option Progress

abbrev Action := Progress → Next → Option Progress

def takeOne (text : Text) (test : CharTest) (p : Progress) : Option Progress :=
  match text[p.pos]? with
  | some c => if test.accepts c then some { p with pos := p.pos + 1 } else none
  | none => none

def runLength (text : Text) (test : CharTest) : Nat → Nat → Nat
  | 0, _ => 0
  | limit + 1, pos =>
    match text[pos]? with
    | some c => if test.accepts c then runLength text test limit (pos + 1) + 1 else 0
    | none => 0

/-- Goes on after `count` characters, or else after fewer, but not fewer than `min`. -/
def giveBack (p : Progress) (next : Next) (min : Nat) : Nat → Option Progress
  | 0 => if min == 0 then next p else none
  | count + 1 =>
    if count + 1 < min then none
    else
      match next { p with pos := p.pos + (count + 1) } with
      | some r => some r
      | none => giveBack p next min count

/-- Goes on at once, or else after one more of up to `count` characters. -/
def takeMore (p : Progress) (next : Next) : Nat → Option Progress
  | 0 => next p
  | count + 1 =>
    match next p with
    | some r => some r
    | none => takeMore { p with pos := p.pos + 1 } next count

def loopOne (text : Text) (test : CharTest) (greed : Greed) (min : Nat) (max : Option Nat) :
    Action :=
  fun p next =>
    let room := text.size - p.pos
    let most := match max with | some m => Nat.min m room | none => room
    let count := runLength text test most p.pos
    if count < min then none
    else
      match greed with
      | .greedy => giveBack p next min count
      | .lazy => takeMore { p with pos := p.pos + min } next (count - min)
      | .possessive => next { p with pos := p.pos + count }

def belowMax (count : Nat) : Option Nat → Bool
  | some m => count < m
  | none => true

/-- Repeats as often as possible. `count` repetitions are done and the last one that was optional
began at `last`; a repetition that would begin there again is not tried, so an empty one ends the
loop. The fuel bounds the repetitions. -/
def loopGreedy (body : Action) (min : Nat) (max : Option Nat) (next : Next) :
    Nat → Nat → Option Nat → Next
  | 0, _, _ => next
  | fuel + 1, count, last => fun p =>
    if count < min then
      body p (loopGreedy body min max next fuel (count + 1) last)
    else if belowMax count max && some p.pos != last then
      match body p (loopGreedy body min max next fuel (count + 1) (some p.pos)) with
      | some r => some r
      | none => next p
    else next p

/-- Repeats as seldom as possible, with the same rule for empty repetitions. -/
def loopLazy (body : Action) (min : Nat) (max : Option Nat) (next : Next) :
    Nat → Nat → Option Nat → Next
  | 0, _, _ => next
  | fuel + 1, count, last => fun p =>
    if count < min then
      body p (loopLazy body min max next fuel (count + 1) last)
    else
      match next p with
      | some r => some r
      | none =>
        if belowMax count max && some p.pos != last then
          body p (loopLazy body min max next fuel (count + 1) (some p.pos))
        else none

/-- Repeats as often as possible and keeps to the first way found for each repetition. -/
def loopPossessive (body : Action) (min : Nat) (max : Option Nat) (next : Next) :
    Nat → Nat → Option Nat → Next
  | 0, _, _ => next
  | fuel + 1, count, last => fun p =>
    if count < min then
      match body p some with
      | some q => loopPossessive body min max next fuel (count + 1) last q
      | none => none
    else if belowMax count max && some p.pos != last then
      match body p some with
      | some q => loopPossessive body min max next fuel (count + 1) (some p.pos) q
      | none => next p
    else next p

def repeatsAt (text : Text) (letters : Letters) (a b i : Nat) : Bool :=
  (List.range (b - a)).all fun k =>
    match text[a + k]?, text[i + k]? with
    | some c, some d =>
      if letters.ignoreCase then letters.lower c == letters.lower d else c == d
    | _, _ => false

namespace Node

/-- Matches a node from where a match has come to, and goes on with `next`. -/
def run (text : Text) : Node → Action
  | .empty, p, next => next p
  | .one test, p, next => (takeOne text test p).bind next
  | .anchor a, p, next => if a.holds text p.pos then next p else none
  | .seq a b, p, next => a.run text p fun q => b.run text q next
  | .alt a b, p, next =>
    match a.run text p next with
    | some r => some r
    | none => b.run text p next
  | .capture group a, p, next => a.run text (p.enter group) fun q => next (q.leave group)
  | .again group letters _, p, next =>
    match p.captured? group with
    | some (a, b) =>
      if repeatsAt text letters a b p.pos then next { p with pos := p.pos + (b - a) } else none
    | none => none
  | .loop greed min max (.one test), p, next => loopOne text test greed min max p next
  | .loop greed min max a, p, next =>
    let fuel := min + (text.size - p.pos) + 2
    match greed with
    | .greedy => loopGreedy (fun p k => a.run text p k) min max next fuel 0 none p
    | .lazy => loopLazy (fun p k => a.run text p k) min max next fuel 0 none p
    | .possessive => loopPossessive (fun p k => a.run text p k) min max next fuel 0 none p
  | .ahead negated a, p, next =>
    match a.run text p some with
    | some q => if negated then none else next { q with pos := p.pos }
    | none => if negated then next p else none
  | .behind negated width a, p, next =>
    if p.pos < width then if negated then next p else none
    else
      match a.run text { p with pos := p.pos - width } some with
      | some q => if negated then none else next { q with pos := p.pos }
      | none => if negated then next p else none
  | .atomic a, p, next =>
    match a.run text p some with
    | some q => next q
    | none => none
  | .ifGroup group yes no, p, next =>
    match p.captured? group with
    | some _ => yes.run text p next
    | none => no.run text p next

end Node

end LineScope.Pattern

namespace LineScope.Pattern

/-- The match at the first of `count` places from `pos` on where the pattern matches, as the place
and what the match came to. -/
def firstMatch (pattern : Pattern) (text : Text) : Nat → Nat → Option (Nat × Progress)
  | 0, _ => none
  | count + 1, pos =>
    match pattern.root.run text (.start pos pattern.groups) some with
    | some p => some (pos, p)
    | none => firstMatch pattern text count (pos + 1)

end LineScope.Pattern
