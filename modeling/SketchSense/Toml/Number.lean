import SketchSense.Toml.Quoted

/-!
# Numbers and moments of a document

* `integer`, in base 10, 16, 8 or 2, within 64 bits;
* `float`, which is read but not kept: no setting is one;
* `moment`, a date, a time or both, which is only checked.
-/

namespace SketchSense.Toml

open Reader

/-! ## Digits -/

/-- One digit or more, with single underscores between them. -/
def digits (p : Char → Bool) : Reader (List Char) := do
  let c ← charIf p
  let more ← many do
    let _ ← maybe (mark "_")
    charIf p
  return c :: more

/-- The sign of a number: whether it is a minus. -/
def sign : Reader Bool := do
  match ← maybe (charIf fun c => c == '+' || c == '-') with
  | some c => return c == '-'
  | none => return false

/-- Digits of base 10 that do not start with a zero, or a zero alone. -/
def decimal : Reader (List Char) :=
  (do
    let c ← charIf (· == '0')
    return [c])
  <|> digits Char.isDigit

/-! ## Integers -/

/-- The integers of a document fit 64 bits. -/
def inRange (n : Int) : Bool := -(Int.pow 2 63) ≤ n && n < Int.pow 2 63

def integerIn (opening : String) (base : Nat) (p : Char → Bool) : Reader Int := do
  mark opening
  return numberOf base (← digits p)

def decimalInteger : Reader Int := do
  let negative ← sign
  let n := numberOf 10 (← decimal)
  return if negative then -(n : Int) else n

def integer : Reader Int := do
  let n ← integerIn "0x" 16 isHexDigit
    <|> integerIn "0o" 8 (fun c => '0' ≤ c && c ≤ '7')
    <|> integerIn "0b" 2 (fun c => c == '0' || c == '1')
    <|> decimalInteger
  require (inRange n)
  return n

/-! ## Floats -/

/-- From this magnitude on a number is nearer to infinity than to the largest 64-bit float. -/
def floatLimit : Nat := Nat.pow 2 1024 - Nat.pow 2 970

/-- Whether `digits`, moved `exponent` places to the left of the point, reach `floatLimit`. A number
with more than 400 digits before the point does, and one with fewer than 300 does not. -/
def reachesFloatLimit (digits : List Char) (exponent : Int) : Bool :=
  let n := numberOf 10 digits
  if n = 0 then false
  else if exponent > 400 then true
  else if digits.length + exponent < 300 then false
  else if 0 ≤ exponent then floatLimit ≤ n * Nat.pow 10 exponent.toNat
  else floatLimit * Nat.pow 10 (-exponent).toNat ≤ n

def exponent : Reader Int := do
  let _ ← charIf fun c => c == 'e' || c == 'E'
  let negative ← sign
  let n := numberOf 10 (← digits Char.isDigit)
  return if negative then -(n : Int) else n

def fraction : Reader (List Char) := do
  mark "."
  digits Char.isDigit

/-- A number with a fraction, an exponent or both. One that is too large must be negative. -/
def finiteFloat : Reader Unit := do
  let negative ← sign
  let whole ← decimal
  let places ← maybe fraction
  let power ← maybe exponent
  require (places.isSome || power.isSome)
  let places := places.getD []
  require (negative || !reachesFloatLimit (whole ++ places) (power.getD 0 - places.length))

def specialFloat : Reader Unit := do
  let _ ← sign
  mark "inf" <|> mark "nan"

def float : Reader Unit := finiteFloat <|> specialFloat

/-! ## Moments -/

/-- A number of exactly `n` digits that lies between `low` and `high`. -/
def field (n low high : Nat) : Reader Nat := do
  let value := numberOf 10 (← exactly n Char.isDigit)
  require (low ≤ value && value ≤ high)
  return value

def isLeapYear (year : Nat) : Bool := year % 4 == 0 && (year % 100 != 0 || year % 400 == 0)

def daysInMonth (year month : Nat) : Nat :=
  if month = 2 then (if isLeapYear year then 29 else 28)
  else if month = 4 ∨ month = 6 ∨ month = 9 ∨ month = 11 then 30
  else 31

def date : Reader Unit := do
  let year ← field 4 0 9999
  mark "-"
  let month ← field 2 1 12
  mark "-"
  let _ ← field 2 1 (daysInMonth year month)

/-- A time of day. The second may be a leap second. -/
def timeOfDay : Reader Unit := do
  let _ ← field 2 0 23
  mark ":"
  let _ ← field 2 0 59
  mark ":"
  let _ ← field 2 0 60
  let _ ← maybe do
    mark "."
    run1 Char.isDigit

def zone : Reader Unit :=
  (do let _ ← charIf fun c => c == 'Z' || c == 'z')
  <|> do
    let _ ← charIf fun c => c == '+' || c == '-'
    let _ ← field 2 0 23
    mark ":"
    let _ ← field 2 0 59

/-- A date, a time of day, or a date with a time that may name its zone. -/
def moment : Reader Unit :=
  (do
    date
    let _ ← maybe do
      let _ ← charIf fun c => c == 'T' || c == 't' || c == ' '
      timeOfDay
      maybe zone)
  <|> timeOfDay

end SketchSense.Toml
