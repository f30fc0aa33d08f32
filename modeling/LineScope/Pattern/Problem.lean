import LineScope.Text.Quoted
import LineScope.Text.WholeNumber

namespace LineScope.Pattern

inductive Mistake where
  | trailingBackslash
  | badEscape (escape : String)
  | incompleteEscape (escape : String)
  | octalRange (escape : String)
  | missingBrace
  | missingName (what : String)
  | unterminatedName (terminator : Char)
  | undefinedCharacter (name : String)
  | badGroupName (name : String)
  | unknownGroup (name : String)
  | redefinedGroup (name : String) (new old : Nat)
  | badGroupNumber
  | noSuchGroup (number : Nat)
  | openGroup
  | groupOfSameLookbehind
  | unterminatedSet
  | badRange (first last : String)
  | minAboveMax
  | nothingToRepeat
  | multipleRepeat
  | unexpectedEnd
  | unknownExtension (text : String)
  | unterminatedComment
  | unterminatedGroup
  | unbalancedParenthesis
  | thirdBranch
  | lateFlags
  | localeFlag
  | incompatibleFlags
  | unknownFlag
  | missingAfterFlags
  | missingFlag
  | missingColon
  | globalFlagOn
  | globalFlagOff
  | typeFlagOff
  | flagOnAndOff
  | asciiAndUnicode
  | variableLookbehind
  | hugeLookbehind
  | templateRepeat (operator : String)
  | tooManyDigits (count : Nat)
  | hugeRepeat
deriving DecidableEq, Repr

open Text in
def Mistake.message : Mistake → String
  | .trailingBackslash => "bad escape (end of pattern)"
  | .badEscape e => s!"bad escape {e}"
  | .incompleteEscape e => s!"incomplete escape {e}"
  | .octalRange e => s!"octal escape value {e} outside of range 0-0o377"
  | .missingBrace => "missing \x7b"
  | .missingName what => s!"missing {what}"
  | .unterminatedName t => s!"missing {t}, unterminated name"
  | .undefinedCharacter name => s!"undefined character name {quoted name}"
  | .badGroupName name => s!"bad character in group name {quoted name}"
  | .unknownGroup name => s!"unknown group name {quoted name}"
  | .redefinedGroup name new old =>
    s!"redefinition of group name {quoted name} as group {new}; was group {old}"
  | .badGroupNumber => "bad group number"
  | .noSuchGroup n => s!"invalid group reference {n}"
  | .openGroup => "cannot refer to an open group"
  | .groupOfSameLookbehind => "cannot refer to group defined in the same lookbehind subpattern"
  | .unterminatedSet => "unterminated character set"
  | .badRange first last => s!"bad character range {first}-{last}"
  | .minAboveMax => "min repeat greater than max repeat"
  | .nothingToRepeat => "nothing to repeat"
  | .multipleRepeat => "multiple repeat"
  | .unexpectedEnd => "unexpected end of pattern"
  | .unknownExtension text => s!"unknown extension {text}"
  | .unterminatedComment => "missing ), unterminated comment"
  | .unterminatedGroup => "missing ), unterminated subpattern"
  | .unbalancedParenthesis => "unbalanced parenthesis"
  | .thirdBranch => "conditional backref with more than two branches"
  | .lateFlags => "global flags not at the start of the expression"
  | .localeFlag => "bad inline flags: cannot use 'L' flag with a str pattern"
  | .incompatibleFlags => "bad inline flags: flags 'a', 'u' and 'L' are incompatible"
  | .unknownFlag => "unknown flag"
  | .missingAfterFlags => "missing -, : or )"
  | .missingFlag => "missing flag"
  | .missingColon => "missing :"
  | .globalFlagOn => "bad inline flags: cannot turn on global flag"
  | .globalFlagOff => "bad inline flags: cannot turn off global flag"
  | .typeFlagOff => "bad inline flags: cannot turn off flags 'a', 'u' and 'L'"
  | .flagOnAndOff => "bad inline flags: flag turned on and off"
  | .asciiAndUnicode => "ASCII and UNICODE flags are incompatible"
  | .variableLookbehind => "look-behind requires fixed-width pattern"
  | .hugeLookbehind => "looks too much behind"
  | .templateRepeat operator => s!"internal: unsupported template operator {operator}"
  | .tooManyDigits count => Text.tooManyDigits count
  | .hugeRepeat => "the repetition number is too large"

structure Problem where
  mistake : Mistake
  pos : Option Nat
deriving DecidableEq, Repr

/-- The message with the offset, and with line and column if the pattern has several lines. -/
def Problem.report (p : Problem) (source : List Char) : String :=
  match p.pos with
  | none => p.mistake.message
  | some pos =>
    let before := source.take pos
    let line := before.count '\n' + 1
    let column := (before.reverse.takeWhile (· != '\n')).length + 1
    let place := s!"{p.mistake.message} at position {pos}"
    if source.contains '\n' then s!"{place} (line {line}, column {column})" else place

end LineScope.Pattern
