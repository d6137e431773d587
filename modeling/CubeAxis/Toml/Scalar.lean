import CubeAxis.Document

namespace CubeAxis.Toml

/-- Digits of a base, single underscores between them. -/
def isDigits (isDigit : Char → Bool) : List Char → Bool
  | [c] => isDigit c
  | c :: '_' :: cs => isDigit c && isDigits isDigit cs
  | c :: cs => isDigit c && isDigits isDigit cs
  | [] => false

def hexDigit? (c : Char) : Option Nat :=
  if '0' ≤ c ∧ c ≤ '9' then some (c.toNat - '0'.toNat)
  else if 'a' ≤ c ∧ c ≤ 'f' then some (c.toNat - 'a'.toNat + 10)
  else if 'A' ≤ c ∧ c ≤ 'F' then some (c.toNat - 'A'.toNat + 10)
  else none

def isDigitBelow (base : Nat) (c : Char) : Bool :=
  (hexDigit? c).any (· < base)

/-- The value of digits, all else skipped. -/
def digitsValue (base : Nat) (cs : List Char) : Nat :=
  cs.foldl (fun n c => (hexDigit? c).elim n (n * base + ·)) 0

/-- Decimal digits without a superfluous leading zero. -/
def isDecimal (cs : List Char) : Bool :=
  isDigits (isDigitBelow 10) cs && (cs.head? != some '0' || cs.length == 1)

def unsigned : List Char → List Char
  | '+' :: cs => cs
  | '-' :: cs => cs
  | cs => cs

/-- The first number too large for a signed word of 64 bits, two to the power of 63. -/
def wordBound : Nat := 0x8000000000000000

/-- Integers fit in a signed word of 64 bits. Only decimal ones carry a sign. -/
def isInteger : List Char → Bool
  | '0' :: 'x' :: cs => inBase 16 cs
  | '0' :: 'o' :: cs => inBase 8 cs
  | '0' :: 'b' :: cs => inBase 2 cs
  | cs =>
    let size := digitsValue 10 (unsigned cs)
    isDecimal (unsigned cs) && (size < wordBound || cs.head? = some '-' && size = wordBound)
where
  inBase (base : Nat) (cs : List Char) : Bool :=
    isDigits (isDigitBelow base) cs && digitsValue base cs < wordBound

def isExponent (cs : List Char) : Bool :=
  isDigits (isDigitBelow 10) (unsigned cs)

/-- What may follow the integer part of a float: a fraction, an exponent, or both. -/
def isFloatTail : List Char → Bool
  | '.' :: cs =>
    let (fraction, rest) := cs.span fun c => c != 'e' && c != 'E'
    isDigits (isDigitBelow 10) fraction && (rest.isEmpty || isExponent (rest.drop 1))
  | 'e' :: cs => isExponent cs
  | 'E' :: cs => isExponent cs
  | _ => false

/-- The size of a float without its sign, as digits times a power of ten. -/
def floatSize (cs : List Char) : Nat × Int :=
  let (digits, rest) := cs.span fun c => c != 'e' && c != 'E'
  let places := (digits.dropWhile (· != '.')).countP (isDigitBelow 10)
  let power : Int := digitsValue 10 (unsigned (rest.drop 1))
  (digitsValue 10 digits, (if (rest.drop 1).head? = some '-' then -power else power) - places)

/-- The number from which on a float of 64 bits is infinite, half a unit above the
largest finite one. -/
def infiniteFrom : Nat := 1 <<< 1024 - 1 <<< 970

/-- Whether digits times a power of ten are too large to be finite. The power is
worked out only where the count of digits does not decide. -/
def isInfinite (digits : Nat) (power : Int) : Bool :=
  let places := (Nat.toDigits 10 digits).length + power
  digits != 0 && (309 < places ||
    places == 309 &&
      infiniteFrom * Nat.pow 10 (-power).toNat ≤ digits * Nat.pow 10 power.toNat)

/-- Positive floats have to be finite, unless infinity is what is written. -/
def isFloat (cs : List Char) : Bool :=
  let size := unsigned cs
  size == "inf".toList || size == "nan".toList ||
    let (whole, rest) := size.span fun c => c != '.' && c != 'e' && c != 'E'
    isDecimal whole && isFloatTail rest &&
      (cs.head? == some '-' || !(isInfinite (floatSize size).1 (floatSize size).2))

/-- A number of exactly `width` decimal digits within bounds. -/
def isField (width low high : Nat) (cs : List Char) : Bool :=
  cs.length == width && cs.all (isDigitBelow 10) &&
    low ≤ digitsValue 10 cs && digitsValue 10 cs ≤ high

def daysIn (year month : Nat) : Nat :=
  if month = 2 then
    if year % 4 = 0 && (year % 100 != 0 || year % 400 = 0) then 29 else 28
  else if [4, 6, 9, 11].contains month then 30
  else 31

/-- A date as `yyyy-mm-dd`. -/
def isDate (cs : List Char) : Bool :=
  match cs.splitBy fun a b => a != '-' && b != '-' with
  | [year, ['-'], month, ['-'], day] =>
    isField 4 0 9999 year && isField 2 1 12 month &&
      isField 2 1 (daysIn (digitsValue 10 year) (digitsValue 10 month)) day
  | _ => false

/-- A time as `hh:mm:ss`, with a fraction or not. -/
def isTime (cs : List Char) : Bool :=
  let (whole, fraction) := cs.span (· != '.')
  (fraction.isEmpty || (fraction.drop 1 != [] && (fraction.drop 1).all (isDigitBelow 10))) &&
    match whole.splitBy fun a b => a != ':' && b != ':' with
    | [hour, [':'], minute, [':'], second] =>
      isField 2 0 23 hour && isField 2 0 59 minute && isField 2 0 60 second
    | _ => false

/-- The letter `Z`, or hours and minutes with a sign. -/
def isOffset : List Char → Bool
  | ['Z'] => true
  | ['z'] => true
  | sign :: cs =>
    (sign == '+' || sign == '-') &&
      match cs.splitBy fun a b => a != ':' && b != ':' with
      | [hour, [':'], minute] => isField 2 0 23 hour && isField 2 0 59 minute
      | _ => false
  | [] => false

/-- A date, a time, or both with or without an offset. -/
def isDateTime (cs : List Char) : Bool :=
  let (date, rest) := (cs.take 10, cs.drop 10)
  let (time, offset) := (rest.drop 1).span fun c => !(['Z', 'z', '+', '-'].contains c)
  isTime cs || isDate date &&
    (rest.isEmpty ||
      ((rest.head?.any ['T', 't', ' '].contains) && isTime time &&
        (offset.isEmpty || isOffset offset)))

/-- The value of an unquoted word. -/
def scalar? (cs : List Char) : Option Document :=
  if cs == "true".toList then some (.bool true)
  else if cs == "false".toList then some (.bool false)
  else if isInteger cs || isFloat cs || isDateTime cs then some (.scalar (String.ofList cs))
  else none

def isWordChar (c : Char) : Bool :=
  c.isAlphanum || ['_', '-', '+', '.', ':'].contains c

/-- Cuts an unquoted word off. A date goes on past a blank if a digit follows it. -/
def takeWord (cs : List Char) : List Char × List Char :=
  let (word, rest) := cs.span isWordChar
  match rest with
  | ' ' :: c :: more =>
    if isDate word && isDigitBelow 10 c then
      let (time, rest) := (c :: more).span isWordChar
      (word ++ ' ' :: time, rest)
    else (word, rest)
  | _ => (word, rest)

end CubeAxis.Toml
