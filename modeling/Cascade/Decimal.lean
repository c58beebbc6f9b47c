/-!
# Cascade.Decimal

Decimal texts of binary fractions. A value is `m * 2 ^ q` with a natural `m`; the reals that
round to it form an interval around it, and `shortest` finds the decimal with the fewest digits
in that interval.

* `Binary.interval` gives the rounding interval in quarter units, with its ends included exactly
  when `m` is even.
* `shortest` walks the grids of spacing `10 ^ g` from coarse to fine and stops at the first one
  with a point inside; of two such points it takes the nearer, and the upper one on a tie.
* `positional` lays digits out without an exponent and with at least one fractional digit.
-/

namespace Cascade.Decimal

/-- The positive value `m * 2 ^ q`. `lowest` tells that the next smaller value is only half as far
away as the next larger one, which is so at a power of two. -/
structure Binary where
  m : Nat
  q : Int
  lowest : Bool
  deriving DecidableEq, Repr

structure Interval where
  low : Nat
  mid : Nat
  high : Nat
  closed : Bool
  deriving DecidableEq, Repr

def Binary.interval (b : Binary) : Interval where
  low := 4 * b.m - (if b.lowest then 1 else 2)
  mid := 4 * b.m
  high := 4 * b.m + 2
  closed := b.m % 2 == 0

def scaleUp (base : Nat) (e : Int) (n : Nat) : Nat := n * Nat.pow base e.toNat

/-- The value `x * 2 ^ (q - 2)` on the common scale of the grid `10 ^ g`. -/
def onScale (b : Binary) (g : Int) (x : Nat) : Nat :=
  scaleUp 2 (b.q - 2) (scaleUp 10 (-g) x)

def gridPoint (b : Binary) (g : Int) (c : Nat) : Nat :=
  scaleUp 2 (2 - b.q) (scaleUp 10 g c)

def inside (b : Binary) (g : Int) (c : Nat) : Bool :=
  let i := b.interval
  let x := gridPoint b g c
  if i.closed then onScale b g i.low ≤ x && x ≤ onScale b g i.high
  else onScale b g i.low < x && x < onScale b g i.high

def onGrid? (b : Binary) (g : Int) : Option Nat :=
  let v := onScale b g (4 * b.m)
  let c := v / gridPoint b g 1
  match inside b g c, inside b g (c + 1) with
  | true, true =>
    if gridPoint b g (c + 1) - v ≤ v - gridPoint b g c then some (c + 1) else some c
  | true, false => some c
  | false, true => some (c + 1)
  | false, false => none

/-- Search grids `10 ^ g`, `10 ^ (g - 1)`, … for the first point inside. -/
def search (b : Binary) : Nat → Int → Nat × Int
  | 0, g => (onScale b g (4 * b.m) / gridPoint b g 1, g)
  | n + 1, g =>
    match onGrid? b g with
    | some c => (c, g)
    | none => search b n (g - 1)

/-- A grid coarser than the value: `10 ^ coarse ≥ m * 2 ^ q`. -/
def Binary.coarse (b : Binary) : Int :=
  (b.q + Int.ofNat (b.m.log2 + 1)) * 30103 / 100000 + 2

/-- Digits `c` and exponent `g` of the shortest decimal `c * 10 ^ g` that reads back. Seventeen
digits always do, so twenty-four grids are more than enough. -/
def shortest (b : Binary) : Nat × Int := search b 24 b.coarse

/-- Write `c * 10 ^ g` positionally, with at least one digit on either side of the point. -/
def positional (c : Nat) (g : Int) : String :=
  if 0 ≤ g then
    toString c ++ String.ofList (List.replicate g.toNat '0') ++ ".0"
  else
    let places := (-g).toNat
    let digits := (toString c).toList
    let padded := List.replicate (places + 1 - digits.length) '0' ++ digits
    let whole := padded.length - places
    String.ofList (padded.take whole) ++ "." ++ String.ofList (padded.drop whole)

end Cascade.Decimal
