import FileRoutes.Toml.Text

/-!
# Numbers and moments in TOML

A decimal number has no zero in front of other digits; digits may be set off by single underscores
between them. A whole number fits in 64 bits with sign, and may also be written without a sign in
base sixteen, eight or two. A floating-point number has a fraction, an exponent or both, or is one
of the words for infinity and for no number; a numeral too large for a double is refused, except
with a minus sign.

A moment is a date, a time of day, or both with an optional offset. Each part has its fixed number
of digits and its range, and a day has to exist in its month.
-/

namespace FileRoutes.Toml

open Reader

/-! ### Digits -/

/-- The digits after the first one, set off by single underscores or not. -/
def moreDigits (p : Char → Bool) : (fuel : Nat) → Reader (List Char)
  | 0 => return []
  | fuel + 1 => do
    match ← peek with
    | some '_' =>
      let _ ← next
      let c ← next
      if p c then return c :: (← moreDigits p fuel) else unexpected
    | some c =>
      if p c then
        let _ ← next
        return c :: (← moreDigits p fuel)
      else return []
    | none => return []

/-- One or more digits, set off by single underscores or not, without the underscores. -/
def digits (p : Char → Bool) : Reader (List Char) := do
  let c ← next
  if p c then return c :: (← moreDigits p (← get).length) else unexpected

/-- The digits of a whole decimal number: zero alone, or digits that do not start with zero. -/
def wholeDigits : Reader (List Char) := do
  if ← accept ['0'] then return ['0']
  digits Char.isDigit

/-- The number that digits in the given base stand for. -/
def valueOf (base : Nat) (text : List Char) : Nat :=
  text.foldl (fun n c => base * n + (hexValue? c).getD 0) 0

/-! ### Numbers -/

/-- Numbers of 64 bits with sign. -/
def fitsInteger (n : Int) : Bool :=
  -9223372036854775808 ≤ n && n < 9223372036854775808

/-- A whole number, if it is in range. -/
def integer (n : Int) : Reader Item :=
  if fitsInteger n then return .integer n else throw (.outOfRange (toString n))

/-- The numeral `mantissa` times ten to the power `exponent` rounds to a number beyond all
doubles. Far from that border the count of digits decides, so that no large power is computed. -/
def overflows (mantissa : Nat) (exponent : Int) : Bool :=
  let magnitude := (Nat.toDigits 10 mantissa).length + exponent
  if mantissa = 0 ∨ magnitude < 300 then false
  else if 320 < magnitude then true
  else
    let border := Nat.pow 2 1024 - Nat.pow 2 970
    match exponent with
    | .ofNat e => border ≤ mantissa * Nat.pow 10 e
    | .negSucc e => border * Nat.pow 10 (e + 1) ≤ mantissa

/-- The exponent of a number, if there is one. -/
def exponent? : Reader (Option Int) := do
  match ← peek with
  | some 'e' | some 'E' =>
    let _ ← next
    let negative ← accept ['-']
    unless negative do
      let _ ← accept ['+']
    let value := valueOf 10 (← digits Char.isDigit)
    return some (if negative then -value else value)
  | _ => return none

/-- A whole number in another base. -/
def inBase (base : Nat) (p : Char → Bool) : Reader Item := do
  integer (valueOf base (← digits p))

/-- A decimal number, after its sign. -/
def decimal (negative : Bool) : Reader Item := do
  let whole ← wholeDigits
  let fraction ← if ← accept ['.'] then some <$> digits Char.isDigit else pure none
  let exponent ← exponent?
  if fraction.isNone && exponent.isNone then
    let value : Int := valueOf 10 whole
    integer (if negative then -value else value)
  else
    let fraction := fraction.getD []
    let mantissa := whole ++ fraction
    let exponent := exponent.getD 0 - fraction.length
    let numeral := (if negative then "-" else "") ++ String.ofList mantissa ++ "e" ++
      toString exponent
    if !negative && overflows (valueOf 10 mantissa) exponent then throw (.outOfRange numeral)
    return .float numeral

/-- A number. -/
def number : Reader Item := do
  if ← accept ['0', 'x'] then return ← inBase 16 fun c => (hexValue? c).isSome
  if ← accept ['0', 'o'] then return ← inBase 8 fun c => '0' ≤ c && c ≤ '7'
  if ← accept ['0', 'b'] then return ← inBase 2 fun c => c = '0' || c = '1'
  let negative ← accept ['-']
  unless negative do
    let _ ← accept ['+']
  if ← accept ['i', 'n', 'f'] then return .float (if negative then "-inf" else "inf")
  if ← accept ['n', 'a', 'n'] then return .float "nan"
  decimal negative

/-! ### Moments -/

/-- A number of exactly `count` digits from `low` to `high`. -/
def twoSided (count low high : Nat) : Reader Nat := do
  let text := (← get).take count
  let value := valueOf 10 text
  if text.length = count && text.all Char.isDigit && low ≤ value && value ≤ high then
    set ((← get).drop count)
    return value
  else unexpected

/-- The days of a month. -/
def daysOf (year month : Nat) : Nat :=
  if month = 2 then
    if year % 4 = 0 ∧ (year % 100 ≠ 0 ∨ year % 400 = 0) then 29 else 28
  else if month ∈ [4, 6, 9, 11] then 30 else 31

/-- A date. -/
def date : Reader Unit := do
  let year ← twoSided 4 0 9999
  expect ['-']
  let month ← twoSided 2 1 12
  expect ['-']
  let _ ← twoSided 2 1 (daysOf year month)

/-- A time of day; the second may be a leap second. -/
def timeOfDay : Reader Unit := do
  let _ ← twoSided 2 0 23
  expect [':']
  let _ ← twoSided 2 0 59
  expect [':']
  let _ ← twoSided 2 0 60
  if ← accept ['.'] then
    if (← takeWhile Char.isDigit).isEmpty then unexpected

/-- An offset from universal time, if there is one. -/
def skipOffset : Reader Unit := do
  match ← peek with
  | some 'Z' | some 'z' =>
    let _ ← next
  | some '+' | some '-' =>
    let _ ← next
    let _ ← twoSided 2 0 23
    expect [':']
    let _ ← twoSided 2 0 59
  | _ => return

/-- A time of day starts here. -/
def startsTime (chars : List Char) : Bool :=
  (chars.take 2).length = 2 && (chars.take 2).all Char.isDigit && (chars.drop 2).head? = some ':'

/-- A date starts here. -/
def startsDate (chars : List Char) : Bool :=
  (chars.take 4).length = 4 && (chars.take 4).all Char.isDigit && (chars.drop 4).head? = some '-'

/-- A date or a time of day, where one starts. A time belongs to the date before it if a `T` or a
space stands between them. -/
def moment : Reader Item := do
  let chars ← get
  if startsDate chars then
    date
    match ← get with
    | c :: rest =>
      if c = 'T' || c = 't' || (c = ' ' && startsTime rest) then
        set rest
        timeOfDay
        skipOffset
    | [] => pure ()
  else timeOfDay
  let left := (← get).length
  return .moment (String.ofList (chars.take (chars.length - left)))

end FileRoutes.Toml
