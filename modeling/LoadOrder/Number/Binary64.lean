namespace LoadOrder.Number

/-- The natural number nearest to `n / d`; a half goes to the even neighbour. -/
def divToEven (n d : Nat) : Nat :=
  if 2 * (n % d) < d ∨ 2 * (n % d) = d ∧ n / d % 2 = 0 then n / d else n / d + 1

/-- The natural number nearest to `n / d`; a half goes up. -/
def divHalfUp (n d : Nat) : Nat := (2 * n + d) / (2 * d)

/-- The greatest `e` with `2 ^ e ≤ n / d`. -/
def exponent (n d : Nat) : Int :=
  let k : Int := (n.log2 : Int) - (d.log2 : Int)
  let reached := if 0 ≤ k then d * Nat.pow 2 k.toNat ≤ n else d ≤ n * Nat.pow 2 (-k).toNat
  if reached then k else k - 1

/-- The nearest number with 53 binary digits to a number that is not negative; a tie goes to the
even one. The exponent is not bounded. -/
def nearest (q : Rat) : Rat :=
  let n := q.num.toNat
  let shift := exponent n q.den - 52
  if n = 0 then 0
  else if 0 ≤ shift then
    let unit := Nat.pow 2 shift.toNat
    (divToEven n (q.den * unit) * unit : Nat)
  else
    let parts := Nat.pow 2 (-shift).toNat
    mkRat (divToEven (n * parts) q.den) parts

def nearestSigned (q : Rat) : Rat := if q < 0 then -nearest (-q) else nearest q

/-- A number that is not negative with four decimals; a tie goes to the even digit. -/
def fourDecimals (q : Rat) : String :=
  let n := divToEven (q.num.toNat * 10000) q.den
  let digits := (toString (n % 10000)).toList
  toString (n / 10000) ++ "." ++ String.ofList (List.replicate (4 - digits.length) '0' ++ digits)

end LoadOrder.Number
