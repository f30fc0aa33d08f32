namespace LineScope

structure Limits where
  /-- How many regions may be open when another one opens. -/
  depth : Int
  /-- Lines with more characters are not scanned. -/
  length : Option Int
deriving DecidableEq, Repr

def Limits.default : Limits := ⟨100, none⟩

end LineScope
