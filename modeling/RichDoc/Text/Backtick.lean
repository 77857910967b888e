/-! Runs of backticks in a text. A fence or a code span is safe when it is longer than every run
inside it. -/

namespace RichDoc.Text

/-- The character that delimits code. -/
abbrev backtick : Char := '\x60'

/-- A scan for backticks: the length of the run that ends here, and of the longest run so far. -/
structure RunScan where
  current : Nat
  longest : Nat
  deriving DecidableEq

def RunScan.step (s : RunScan) (c : Char) : RunScan :=
  if c = backtick then ⟨s.current + 1, max s.longest (s.current + 1)⟩ else ⟨0, s.longest⟩

/-- The length of the longest run of backticks. -/
def longestRun (t : List Char) : Nat :=
  (t.foldl RunScan.step ⟨0, 0⟩).longest

def ticks (n : Nat) : List Char := List.replicate n backtick

@[simp] theorem longestRun_nil : longestRun [] = 0 := rfl

@[simp] theorem length_ticks (n : Nat) : (ticks n).length = n := by simp [ticks]

end RichDoc.Text
