import ProgramAnalysis.Duration
import ProgramAnalysis.Text.Blank
/-!
Reports of counters and times: titled sections of named values, and stopwatches.
-/

namespace ProgramAnalysis

/-- A titled section of a report. -/
structure Section where
  title : String
  rows : List (String × String)
deriving DecidableEq, Inhabited

/-- The title on a line of its own, then one line per row, the values one below the other. -/
def Section.text (s : Section) : String :=
  s.rows.foldl (fun out (key, value) => out ++ "  " ++ Text.padRight 32 key ++ " " ++ value ++ "\n")
    (s.title ++ ":\n")

/-- A stopwatch: total and longest recorded time, and how many times were recorded. -/
structure Timer where
  total : Duration
  longest : Duration
  intervals : Nat
deriving DecidableEq, Inhabited

namespace Timer

def zero : Timer := ⟨.zero, .zero, 0⟩

def record (t : Timer) (elapsed : Duration) : Timer :=
  ⟨t.total.add elapsed, t.longest.max elapsed, t.intervals + 1⟩

def text (t : Timer) : String :=
  t.total.seconds ++ "s (max " ++ t.longest.seconds ++ "s, " ++ Nat.repr t.intervals ++
    " intervals)"

end Timer

end ProgramAnalysis
