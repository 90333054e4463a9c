/-
  FlagFold.Decimal.Binary64

  The floating-point numbers of 64 bits, kept as exact integers: reading a
  decimal rounds it to the nearest number, ties to the even one, and writing a
  number gives the fewest digits that read back.
-/

namespace FlagFold

/-- A floating-point number of 64 bits.  A finite one is `mantissa * 2 ^ exponent`, with
`mantissa < 2 ^ 53` and `-1074 ≤ exponent`, the mantissa as large as these allow. -/
inductive Binary64 where
  | nan
  | infinite (negative : Bool)
  | finite (negative : Bool) (mantissa : Nat) (exponent : Int)
  deriving DecidableEq

namespace Binary64

/-- Zero, of either sign. -/
def isZero : Binary64 → Bool
  | finite _ 0 _ => true
  | _ => false

/-- The integer nearest to `num / den`; a half goes to the even neighbour. -/
def roundHalfEven (num den : Nat) : Nat :=
  let q := num / den
  let r := num % den
  if 2 * r < den then q
  else if den < 2 * r then q + 1
  else if q % 2 = 0 then q else q + 1

/-- `num / den * 2 ^ (-e)` as a fraction. -/
private def scale (num den : Nat) (e : Int) : Nat × Nat :=
  if e ≥ 0 then (num, den * Nat.pow 2 e.toNat) else (num * Nat.pow 2 (-e).toNat, den)

/-- The number nearest to the positive fraction `num / den`. -/
def ofFraction (negative : Bool) (num den : Nat) : Binary64 :=
  -- The mantissa is to have 53 bits; from the sizes of both numbers its exponent is one of two.
  let guess : Int := (Nat.log2 num : Int) - (Nat.log2 den : Int) - 52
  let fits (e : Int) : Bool :=
    let (n, d) := scale num den e
    n < d * Nat.pow 2 53
  let e := if fits (guess - 1) then guess - 1 else if fits guess then guess else guess + 1
  let e := max e (-1074)
  let (n, d) := scale num den e
  let m := roundHalfEven n d
  -- Rounding up may make it one bit longer.
  let (m, e) := if m = Nat.pow 2 53 then (Nat.pow 2 52, e + 1) else (m, e)
  if e > 971 then infinite negative else finite negative m e

/-- The number nearest to `digits * 10 ^ exponent`. Exponents far outside the range are decided
by their size alone. -/
def ofDecimal (negative : Bool) (digits : Nat) (exponent : Int) : Binary64 :=
  let places : Int := (Nat.toDigits 10 digits).length + exponent
  if digits = 0 ∨ places < -400 then finite negative 0 (-1074)
  else if places > 400 then infinite negative
  else if exponent ≥ 0 then ofFraction negative (digits * Nat.pow 10 exponent.toNat) 1
  else ofFraction negative digits (Nat.pow 10 (-exponent).toNat)

/-- `num / den` in units of `10 ^ k`, as a fraction. -/
private def inUnits (num den : Nat) (k : Int) : Nat × Nat :=
  if k ≥ 0 then (num, den * Nat.pow 10 k.toNat) else (num * Nat.pow 10 (-k).toNat, den)

/-- The decimals with units `10 ^ k` next to `num / den` that read back as `x`: of two the
nearer, and the even one where they are equally near. -/
private def readBack (x : Binary64) (num den : Nat) (k : Int) : Option Nat :=
  let (n, d) := inUnits num den k
  let low := n / d
  let reads (c : Nat) : Bool := ofDecimal false c k = x
  match reads low, reads (low + 1) with
  | true, true => some (roundHalfEven n d)
  | true, false => some low
  | false, true => some (low + 1)
  | false, false => none

/-- Tries coarser units first: `steps` more sizes are left, each a tenth of the one before. -/
private def search (x : Binary64) (num den : Nat) : Nat → Int → Nat × Int
  | 0, k => (num / den, k)
  | steps + 1, k =>
    match readBack x num den k with
    | some digits => (digits, k)
    | none => search x num den steps (k - 1)

/-- The fewest digits that read back as the positive number `mantissa * 2 ^ exponent`, with
their unit's power of ten. -/
def shortest (mantissa : Nat) (exponent : Int) : Nat × Int :=
  let (num, den) :=
    if exponent ≥ 0 then (mantissa * Nat.pow 2 exponent.toNat, 1)
    else (mantissa, Nat.pow 2 (-exponent).toNat)
  let top : Int :=
    (Nat.toDigits 10 num).length - (Nat.toDigits 10 den).length + 1
  search (finite false mantissa exponent) num den 25 top

/-- How numbers are written: positional notation covers the decimal exponents from `smallest`
up to and without `largest`. -/
structure Style where
  smallest : Int
  largest : Int

/-- Positional from `0.0001` up to and without `1e+16`. -/
def style : Style := ⟨-4, 16⟩

private def dropZeros (digits : List Char) : List Char :=
  (digits.reverse.dropWhile (· = '0')).reverse

/-- The text of a number: a whole number keeps `.0`, an exponent has a sign and two digits. -/
def toString : Binary64 → String
  | nan => "NaN"
  | infinite negative => if negative then "-Infinity" else "Infinity"
  | finite negative mantissa exponent =>
    let sign := if negative then "-" else ""
    if mantissa = 0 then sign ++ "0.0"
    else
      let (n, k) := shortest mantissa exponent
      let all := Nat.toDigits 10 n
      let digits := dropZeros all
      let point : Int := all.length + k - 1
      sign ++
        if style.smallest ≤ point ∧ point < style.largest then
          if point < 0 then
            "0." ++ String.ofList (List.replicate (-point - 1).toNat '0' ++ digits)
          else
            let whole := digits.take (point.toNat + 1)
            let whole := whole ++ List.replicate (point.toNat + 1 - whole.length) '0'
            let fraction := digits.drop (point.toNat + 1)
            String.ofList whole ++ "." ++
              (if fraction.isEmpty then "0" else String.ofList fraction)
        else
          let mark := if point < 0 then "e-" else "e+"
          let power := Nat.toDigits 10 point.natAbs
          let power := if power.length < 2 then '0' :: power else power
          String.ofList (digits.take 1) ++
            (if digits.length > 1 then "." ++ String.ofList (digits.drop 1) else "") ++
            mark ++ String.ofList power

end Binary64
end FlagFold
