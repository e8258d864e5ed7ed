import ProgramAnalysis.Text.Decimal
/-!
Spans of time, counted in nanoseconds, and their two written forms: seconds with three places, and
the span in the largest unit that it fills.
-/

namespace ProgramAnalysis

/-- A span of time. -/
structure Duration where
  nanos : Nat
deriving DecidableEq, Inhabited

namespace Duration

def zero : Duration := ⟨0⟩

def ofMicros (n : Nat) : Duration := ⟨n * 1000⟩

def ofMillis (n : Nat) : Duration := ⟨n * 1000000⟩

/-- Whole milliseconds. -/
def millis (d : Duration) : Nat := d.nanos / 1000000

def add (a b : Duration) : Duration := ⟨a.nanos + b.nanos⟩

def max (a b : Duration) : Duration := if a.nanos < b.nanos then b else a

/-- Whole seconds and the rest are each rounded to a binary number before they are added. -/
def seconds (d : Duration) : String :=
  let whole := Text.Ratio.toBinary ⟨d.nanos / 1000000000, 1⟩
  let rest := Text.Ratio.toBinary ⟨d.nanos % 1000000000, 1000000000⟩
  (Text.Ratio.toBinary (whole.add rest)).fixed 3

/-- The digits of `part` as a fraction of `10 ^ places`, without the zeros at the end. -/
def fraction (places part : Nat) : String :=
  if part = 0 then ""
  else
    let digits := (Nat.repr part).toList
    let all := List.replicate (places - digits.length) '0' ++ digits
    "." ++ String.ofList (all.reverse.dropWhile (· = '0')).reverse

/-- The span in seconds, milliseconds, microseconds or nanoseconds, whichever is the largest unit
that the span fills. -/
def text (d : Duration) : String :=
  if 1000000000 ≤ d.nanos then
    Nat.repr (d.nanos / 1000000000) ++ fraction 9 (d.nanos % 1000000000) ++ "s"
  else if 1000000 ≤ d.nanos then
    Nat.repr (d.nanos / 1000000) ++ fraction 6 (d.nanos % 1000000) ++ "ms"
  else if 1000 ≤ d.nanos then
    Nat.repr (d.nanos / 1000) ++ fraction 3 (d.nanos % 1000) ++ "µs"
  else Nat.repr d.nanos ++ "ns"

end Duration

end ProgramAnalysis
