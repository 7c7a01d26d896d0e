import DiagramTint.Yaml.Scalar.Flow

/-!
# Plain texts with a meaning of their own

The plain scalars that stand for nothing, a truth value or a number rather than for their text.
-/

namespace DiagramTint.Yaml.Scalar

def isNull (cs : List Char) : Bool :=
  ["", "~", "null", "Null", "NULL"].contains (String.ofList cs)

def isTruthValue (cs : List Char) : Bool :=
  ["true", "True", "TRUE", "false", "False", "FALSE"].contains (String.ofList cs)

/-- Whether a text is a zero and more digits, after an optional sign. -/
def isPaddedNumber (cs : List Char) : Bool :=
  let digits :=
    match cs with
    | '-' :: rest | '+' :: rest => rest
    | _ => cs
  match digits with
  | '0' :: d :: ds => (d :: ds).all Char.isDigit
  | _ => false

/-- The value of a digit in any base up to 16. -/
def digitValue? (base : Nat) (c : Char) : Option Nat :=
  (hexValue? c).filter (· < base)

/-- The number that a text of at least one digit stands for. -/
def digitsValue? (base : Nat) (cs : List Char) : Option Nat :=
  if cs.isEmpty then none
  else cs.foldl (fun n c => n.bind fun n => (digitValue? base c).map (n * base + ·)) (some 0)

/-- The number after one of the marks `0x`, `0o`, `0b`. -/
def marked? : List Char → Option Nat
  | '0' :: 'x' :: cs => digitsValue? 16 cs
  | '0' :: 'o' :: cs => digitsValue? 8 cs
  | '0' :: 'b' :: cs => digitsValue? 2 cs
  | _ => none

/-- Whether a text is an integer with a base mark that fits into 128 bits. -/
def isMarkedInteger (cs : List Char) : Bool :=
  match cs with
  | '-' :: rest => (marked? rest).any (· ≤ Nat.pow 2 127)
  | '+' :: rest => (marked? rest).any (· < Nat.pow 2 128)
  | _ => (marked? cs).any (· < Nat.pow 2 128)

/-- The exponent of a decimal number: `e` or `E`, an optional sign and digits; 0 if nothing is
written. -/
def exponent? : List Char → Option Int
  | [] => some 0
  | c :: cs =>
    if c = 'e' ∨ c = 'E' then
      match cs with
      | '-' :: ds => (digitsValue? 10 ds).map fun n => -(n : Int)
      | '+' :: ds => (digitsValue? 10 ds).map fun n => (n : Int)
      | ds => (digitsValue? 10 ds).map fun n => (n : Int)
    else none

/-- Digits with at most one point among them and at least one digit, and an exponent, as a
coefficient and a power of ten. -/
def decimal? (cs : List Char) : Option (Nat × Int) :=
  let whole := cs.takeWhile Char.isDigit
  let afterWhole := cs.dropWhile Char.isDigit
  let fraction :=
    match afterWhole with
    | '.' :: rest => rest.takeWhile Char.isDigit
    | _ => []
  let tail :=
    match afterWhole with
    | '.' :: rest => rest.dropWhile Char.isDigit
    | _ => afterWhole
  match digitsValue? 10 (whole ++ fraction), exponent? tail with
  | some n, some e => some (n, e - fraction.length)
  | _, _ => none

/-- The least number that is rounded to infinity as a binary number of 64 bits. -/
def infinityBound : Nat :=
  Nat.pow 2 1024 - Nat.pow 2 970

/-- Whether `n` times ten to the power `e` is too large for a binary number of 64 bits. -/
def overflows (n : Nat) (e : Int) : Bool :=
  let size : Int := (Nat.toDigits 10 n).length + e
  if n = 0 ∨ size < 309 then false
  else if 310 < size then true
  else if 0 ≤ e then infinityBound ≤ n * Nat.pow 10 e.toNat
  else infinityBound * Nat.pow 10 (-e).toNat ≤ n

/-- Whether a text without sign is a decimal number of moderate size. -/
def isDecimal (cs : List Char) : Bool :=
  (decimal? cs).any fun (n, e) => !overflows n e

/-- Whether a text is one of the names of infinity. -/
def isInfinity (cs : List Char) : Bool :=
  [".inf", ".Inf", ".INF"].contains (String.ofList cs)

/-- Whether a text is a decimal number, infinite, or not a number. -/
def isFloat (cs : List Char) : Bool :=
  [".nan", ".NaN", ".NAN"].contains (String.ofList cs) ||
    match cs with
    | '-' :: rest | '+' :: rest => isInfinity rest || isDecimal rest
    | _ => isInfinity cs || isDecimal cs

/-- Whether a plain text would not be taken for its text. -/
def hasOtherMeaning (cs : List Char) : Bool :=
  isNull cs || isTruthValue cs || isPaddedNumber cs || isMarkedInteger cs || isFloat cs

end DiagramTint.Yaml.Scalar
