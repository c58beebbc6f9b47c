import Cascade.Decimal

/-!
# Cascade.Double

What the language asks of IEEE doubles beyond the four operations: their parts, the remainder of
the truncated quotient, and their decimal text.

* `Double.remainder` is exact: it works on the integers that the bits stand for.
* `Double.text` has the fewest digits that read back, and never an exponent.
-/

namespace Cascade.Double

/-- A finite double `± m * 2 ^ q`. -/
structure Parts where
  negative : Bool
  m : Nat
  q : Int
  deriving DecidableEq, Repr

def exponentField (x : Float) : Nat := (x.toBits.toNat >>> 52) % (1 <<< 11)

def fractionField (x : Float) : Nat := x.toBits.toNat % (1 <<< 52)

/-- The sign bit, which also tells the two zeros apart. -/
def isNegative (x : Float) : Bool := 1 <<< 63 ≤ x.toBits.toNat

def isFinite (x : Float) : Bool := exponentField x != 2047

def parts (x : Float) : Parts :=
  if exponentField x = 0 then ⟨isNegative x, fractionField x, -1074⟩
  else ⟨isNegative x, (1 <<< 52) + fractionField x, Int.ofNat (exponentField x) - 1075⟩

/-- The double `± m * 2 ^ q`, for `m < 2 ^ 53` and `q ≥ -1074`, where it is exact. -/
def ofParts (p : Parts) : Float :=
  let sign := if p.negative then 1 <<< 63 else 0
  if p.m = 0 then Float.ofBits (UInt64.ofNat sign)
  else
    let shift := min (52 - p.m.log2) (p.q + 1074).toNat
    let m := p.m <<< shift
    let q := p.q - Int.ofNat shift
    if m < 1 <<< 52 then Float.ofBits (UInt64.ofNat (sign + m))
    else Float.ofBits (UInt64.ofNat (sign + ((q + 1075).toNat <<< 52) + (m - (1 <<< 52))))

/-- `x - y * n` for the quotient `n` truncated toward zero, computed without rounding; the sign is
that of `x`. No number remains on division of an infinity or by zero. -/
def remainder (x y : Float) : Float :=
  if x.isNaN || y.isNaN || x.isInf || y == 0 then 0 / 0
  else if y.isInf then x
  else
    let a := parts x
    let b := parts y
    let q := min a.q b.q
    ofParts ⟨a.negative, (a.m <<< (a.q - q).toNat) % (b.m <<< (b.q - q).toNat), q⟩

/-- Truncate toward zero into 64 bits; what lies outside goes to the nearer end, and what is no
number to zero. -/
def toInt (x : Float) : Int := x.toInt64.toInt

def ofInt (n : Int) : Float := (Int64.ofInt n).toFloat

def text (x : Float) : String :=
  if x.isNaN then "NaN"
  else
    let sign := if isNegative x then "-" else ""
    if x.isInf then sign ++ "Infinity"
    else
      let p := parts x
      if p.m = 0 then sign ++ "0.0"
      else
        let d := Decimal.shortest ⟨p.m, p.q, fractionField x = 0 && 1 < exponentField x⟩
        sign ++ Decimal.positional d.1 d.2

end Cascade.Double
