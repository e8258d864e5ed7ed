/-!
Decimal numbers as text: reading a natural number below a bound, and writing a quotient with a fixed
number of places.

A quotient is first rounded to 53 significant binary digits and the result is then rounded to the
wanted number of decimal places. Both roundings go to the nearest value, a half to the even one.
-/

namespace ProgramAnalysis.Text

/-- The value of a decimal digit. -/
def digit? (c : Char) : Option Nat :=
  if '0' ≤ c ∧ c ≤ '9' then some (c.toNat - '0'.toNat) else none

/-- The number written by a list of digits, after the digits that have the value `acc`. -/
def digitsValue? (acc : Nat) : List Char → Option Nat
  | [] => some acc
  | c :: rest => (digit? c).bind fun d => digitsValue? (10 * acc + d) rest

/-- Reads one or more digits, after at most one plus sign, as a number below `bound`. -/
def readNat? (bound : Nat) (s : List Char) : Option Nat :=
  let digits := match s with
    | '+' :: rest => rest
    | _ => s
  if digits.isEmpty then none
  else (digitsValue? 0 digits).bind fun n => if n < bound then some n else none

/-- The bound of numbers of 64 bits. -/
def word64 : Nat := Nat.pow 2 64

/-- The natural number nearest to `num / den`, a half going to the even neighbour. -/
def roundDiv (num den : Nat) : Nat :=
  let q := num / den
  let r := 2 * (num % den)
  if r < den then q
  else if den < r then q + 1
  else if q % 2 = 0 then q else q + 1

/-- A quotient of natural numbers. -/
structure Ratio where
  num : Nat
  den : Nat

namespace Ratio

/-- The power of two `2 ^ e`. -/
def scale (e : Int) : Ratio :=
  if 0 ≤ e then ⟨Nat.pow 2 e.toNat, 1⟩ else ⟨1, Nat.pow 2 (-e).toNat⟩

/-- The exponent of the greatest power of two that is at most the positive value. -/
def exponent (x : Ratio) : Int :=
  let e : Int := (Nat.log2 x.num : Int) - (Nat.log2 x.den : Int)
  let s := scale e
  if s.num * x.den ≤ x.num * s.den then e else e - 1

/-- The nearest value with at most 53 significant binary digits, a half going to the even one. -/
def toBinary (x : Ratio) : Ratio :=
  if x.num = 0 then ⟨0, 1⟩
  else
    let unit := scale (x.exponent - 52)
    let m := roundDiv (x.num * unit.den) (x.den * unit.num)
    ⟨m * unit.num, unit.den⟩

def add (x y : Ratio) : Ratio := ⟨x.num * y.den + y.num * x.den, x.den * y.den⟩

/-- Decimal text with `places` digits after the point. -/
def fixed (places : Nat) (x : Ratio) : String :=
  let unit := Nat.pow 10 places
  let n := roundDiv (x.num * unit) x.den
  let fraction := Nat.repr (n % unit)
  let zeros := String.ofList (List.replicate (places - fraction.length) '0')
  Nat.repr (n / unit) ++ "." ++ zeros ++ fraction

end Ratio

/-- The quotient of two counts with two places; the quotient by zero is written as zero. -/
def average (total count : Nat) : String :=
  if count = 0 then Ratio.fixed 2 ⟨0, 1⟩
  else
    let x := Ratio.toBinary ⟨total, 1⟩
    let y := Ratio.toBinary ⟨count, 1⟩
    (Ratio.toBinary ⟨x.num * y.den, x.den * y.num⟩).fixed 2

end ProgramAnalysis.Text
