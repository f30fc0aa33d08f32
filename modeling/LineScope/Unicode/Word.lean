import LineScope.Unicode.Letter
import LineScope.Unicode.Numeral

namespace LineScope.Unicode

def isWord (c : Char) : Bool := isLetter c || isNumeral c || c == '_'

end LineScope.Unicode
