import LoadOrder.Number.Binary64

namespace LoadOrder

/-- A percentage in double precision. Zero may have a minus sign. -/
inductive Percent
  | of (value : Rat)
  | minusZero
deriving DecidableEq, Repr

namespace Percent

def value : Percent → Rat
  | of q => q
  | minusZero => 0

instance {n : Nat} : OfNat Percent n := ⟨of n⟩

instance : LT Percent := ⟨fun p q => p.value < q.value⟩

instance : LE Percent := ⟨fun p q => p.value ≤ q.value⟩

instance (p q : Percent) : Decidable (p < q) := inferInstanceAs (Decidable (p.value < q.value))

instance (p q : Percent) : Decidable (p ≤ q) := inferInstanceAs (Decidable (p.value ≤ q.value))

/-- A percentage that is not negative, with four decimals. -/
def text : Percent → String
  | of q => Number.fourDecimals q
  | minusZero => "-0.0000"

theorem lt_iff {p q : Percent} : p < q ↔ p.value < q.value := .rfl

theorem le_iff {p q : Percent} : p ≤ q ↔ p.value ≤ q.value := .rfl

end Percent

namespace Progress

def clamp (low high p : Percent) : Percent :=
  if p < low then low else if high < p then high else p

/-- The share of `processed` in `total` in percent, with two decimals and at most `max`. Every step
is rounded by `round`; a half hundredth goes up. -/
def percentageBy (round : Rat → Rat) (total processed : Nat) (max : Percent) : Percent :=
  if total = 0 then 0
  else
    let share := round (round processed / round total)
    let scaled := round (round (share * 100) * 100)
    let hundredths := Number.divHalfUp scaled.num.toNat scaled.den
    clamp 0 max (.of (round ((hundredths : Rat) / 100)))

def percentage (total processed : Nat) (max : Percent) : Percent :=
  percentageBy Number.nearest total processed max

/-- Only a ceiling that is not negative leaves room for the shares of something. -/
def hasRoom (total : Nat) (max : Percent) : Bool := total == 0 || 0 ≤ max

end Progress

/-- Counts what is processed and tells when there is more to report. -/
structure Tracker where
  total : Nat
  processed : Nat
  max : Percent
  last : Percent
deriving Repr

namespace Tracker

def start (total : Nat) (max : Percent) : Tracker := ⟨total, 0, max, 0⟩

/-- Reports a percentage that is greater than the last. -/
def report (t : Tracker) (p : Percent) : Tracker × Option Percent :=
  if t.last < p then ({ t with last := p }, some p) else (t, none)

/-- Counts more that is processed. The count starts again from zero after 64 bits. -/
def advance (t : Tracker) (count : Nat) : Tracker × Option Percent :=
  let t := { t with processed := (t.processed + count) % Nat.pow 2 64 }
  t.report (Progress.percentage t.total t.processed t.max)

/-- Reports that all is done, unless that is reported already. -/
def finish (t : Tracker) : Tracker × Option Percent := t.report 100

end Tracker

end LoadOrder
