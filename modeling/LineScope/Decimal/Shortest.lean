/-!
The fewest decimal digits that read back as a given binary number.

A floating-point number is `m · 2^q`; every real between it and half-way to its neighbours rounds
to it, the half-way points themselves exactly when `m` is even. For one digit, two digits and so
on, the decimals next to the number are tried, and the first that lies in that interval wins.
-/

namespace LineScope.Decimal

/-- A finite positive binary number and the interval of reals that round to it, all as numerators
over one denominator. -/
structure Binary where
  low : Nat
  value : Nat
  high : Nat
  den : Nat
  /-- Whether the ends of the interval round to the number. -/
  closed : Bool

/-- The number `m · 2^q`; `narrow` says that the gap below it is half the gap above. -/
def Binary.ofParts (m : Nat) (q : Int) (narrow : Bool) : Binary :=
  let up := Nat.pow 2 q.toNat
  { low := (4 * m - (if narrow then 1 else 2)) * up
    value := 4 * m * up
    high := (4 * m + 2) * up
    den := 4 * Nat.pow 2 (-q).toNat
    closed := m % 2 == 0 }

structure Scaled where
  digits : Nat
  exponent : Int
deriving DecidableEq, Repr

def Scaled.over (s : Scaled) (b : Binary) : Nat × Nat :=
  (s.digits * Nat.pow 10 s.exponent.toNat * b.den, Nat.pow 10 (-s.exponent).toNat)

def Binary.contains (b : Binary) (s : Scaled) : Bool :=
  let (n, d) := s.over b
  if b.closed then b.low * d ≤ n && n ≤ b.high * d else b.low * d < n && n < b.high * d

def Binary.distance (b : Binary) (s : Scaled) : Nat :=
  let (n, d) := s.over b
  let v := b.value * d
  if n < v then v - n else n - v

def zerosBefore (num den : Nat) : Nat → Nat
  | 0 => 0
  | fuel + 1 => if num * 10 < den then zerosBefore (num * 10) den fuel + 1 else 0

/-- The `e` for which the number lies from `10^(e-1)` up to `10^e`. -/
def Binary.magnitude (b : Binary) : Int :=
  if b.den ≤ b.value then (Nat.toDigits 10 (b.value / b.den)).length
  else -(zerosBefore b.value b.den 400 : Int)

/-- The nearer of the two decimals next to the number on the grid of `10^exponent` that lies in
the interval, if one does; of two at the same distance the one with an even last digit. -/
def Binary.onGrid (b : Binary) (exponent : Int) : Option Scaled :=
  let below := b.value * Nat.pow 10 (-exponent).toNat / (b.den * Nat.pow 10 exponent.toNat)
  let down : Scaled := ⟨below, exponent⟩
  let up : Scaled := ⟨below + 1, exponent⟩
  match b.contains down, b.contains up with
  | false, false => none
  | true, false => some down
  | false, true => some up
  | true, true =>
    if b.distance down < b.distance up then some down
    else if b.distance up < b.distance down then some up
    else if below % 2 == 0 then some down else some up

/-- The first grid with a hit, from `count` digits on. -/
def Binary.fromGrid (b : Binary) (count : Nat) : Nat → Scaled
  | 0 => (b.onGrid (b.magnitude - count)).getD ⟨0, 0⟩
  | fuel + 1 =>
    match b.onGrid (b.magnitude - count) with
    | some s => s
    | none => b.fromGrid (count + 1) fuel

/-- The shortest decimal; seventeen digits always suffice. -/
def Binary.shortest (b : Binary) : Scaled := b.fromGrid 1 16

inductive Kind where
  | nan
  | infinite (negative : Bool)
  | zero (negative : Bool)
  | finite (negative : Bool) (binary : Binary)

/-- The bit above the stored fraction, which normal numbers have and which is not stored. -/
def hiddenBit : Nat := 0x10000000000000

def signBit : Nat := 0x8000000000000000

/-- The number that a double-precision float holds, from its bits. -/
def kindOf (x : Float) : Kind :=
  let bits : Nat := x.toBits.toNat
  let negative := bits / signBit == 1
  let exponent := bits / hiddenBit % 2048
  let fraction := bits % hiddenBit
  if exponent == 2047 then if fraction == 0 then .infinite negative else .nan
  else if exponent == 0 then
    if fraction == 0 then .zero negative
    else .finite negative (.ofParts fraction (-1074) false)
  else
    .finite negative
      (.ofParts (hiddenBit + fraction) ((exponent : Int) - 1075) (fraction == 0 && 1 < exponent))

/-- Positional with at least one place when the point stands at most sixteen digits after the
first and at most three zeros before it; otherwise with an exponent of at least two digits. -/
def layOut (s : Scaled) : String :=
  let digits := Nat.toDigits 10 s.digits
  let digits := (digits.reverse.dropWhile (· == '0')).reverse
  let point := (Nat.toDigits 10 s.digits).length + s.exponent
  let count : Int := digits.length
  if point ≤ -4 || 16 < point then
    let e := point - 1
    let mantissa :=
      match digits with
      | [] => []
      | [d] => [d]
      | d :: rest => d :: '.' :: rest
    let size := Nat.toDigits 10 e.natAbs
    let size := if size.length < 2 then '0' :: size else size
    String.ofList (mantissa ++ 'e' :: (if e < 0 then '-' else '+') :: size)
  else if point ≤ 0 then
    String.ofList ('0' :: '.' :: List.replicate (-point).toNat '0' ++ digits)
  else if count ≤ point then
    String.ofList (digits ++ List.replicate (point - count).toNat '0' ++ ['.', '0'])
  else
    String.ofList (digits.take point.toNat ++ '.' :: digits.drop point.toNat)

structure SpecialNames where
  nan : String
  infinity : String

/-- A float in the fewest digits that read back as it. -/
def render (names : SpecialNames) (x : Float) : String :=
  let sign (negative : Bool) := if negative then "-" else ""
  match kindOf x with
  | .nan => names.nan
  | .infinite negative => sign negative ++ names.infinity
  | .zero negative => sign negative ++ "0.0"
  | .finite negative b => sign negative ++ layOut b.shortest

end LineScope.Decimal
