import Dockerfile.Proofs.Line.Relabel

/-!
# Moving lines down

When something is put in above them, lines get other numbers and other offsets, and nothing else
changes. Everything that is made of them moves by as much: pieces, fragments, logical lines.

* `number_shift` — lines numbered from further on are the same lines moved
* `foldLines_shift` — what `foldLines` makes of lines moved is what it makes of them, moved
* `foldLines_advance` — the same for logical lines that are counted from further on
-/

namespace Dockerfile

/-- The line moved down by `m` lines and `n` characters. -/
def PhysicalLine.shift (m n : Nat) (l : PhysicalLine) : PhysicalLine :=
  { l with index := l.index + m, start := l.start + n }

/-- The fragment on its line moved. Where it stands in the logical text stays. -/
def Fragment.shift (m n : Nat) (f : Fragment) : Fragment :=
  { f with line := f.line + m, offset := f.offset + n }

/-- The logical line on its lines moved. Its number and its text stay. -/
def LogicalLine.shift (m n : Nat) (l : LogicalLine) : LogicalLine :=
  { l with first := l.first.shift m n, more := l.more.map (Fragment.shift m n) }

/-- To be moved down is a change that joining does not look at. -/
def Relabel.shift (m n : Nat) : Relabel where
  line := PhysicalLine.shift m n
  fragment := Fragment.shift m n
  content_line _ := rfl
  ending_line _ := Iff.rfl
  fragmentOf_line _ _ := rfl

variable {m n : Nat}

theorem PhysicalLine.number_shift (index start : Nat) (ls : List RawLine) :
    number (index + m) (start + n) ls = (number index start ls).map (shift m n) := by
  induction ls generalizing index start with
  | nil => rfl
  | cons l ls ih =>
    rw [number, number, List.map_cons, Nat.add_right_comm, Nat.add_right_comm start, ih]
    rfl

/-- **What is made of lines moved is what is made of them, moved**, if one step makes it so. -/
theorem foldLines_shift {σ α : Type} {escape : σ → List Char} {step : σ → LogicalLine → α × σ}
    {move : α → α} (hstep : ∀ s l, step s (l.shift m n) = (move (step s l).1, (step s l).2))
    (index : Nat) (s : σ) (ls : List PhysicalLine) :
    foldLines escape step index s (ls.map (PhysicalLine.shift m n))
      = ((foldLines escape step index s ls).1.map move, (foldLines escape step index s ls).2) :=
  foldLines_relabel (r := .shift m n) hstep index s ls

/-! ## Higher numbers -/

/-- The logical line under a number that is higher by `k`. -/
def LogicalLine.advance (k : Nat) (l : LogicalLine) : LogicalLine := { l with index := l.index + k }

/-- **Logical lines that are counted from further on have higher numbers**, and make no difference
else, if one step makes none. -/
theorem foldLines_advance {σ α : Type} {escape : σ → List Char} {step : σ → LogicalLine → α × σ}
    {k : Nat} {move : α → α}
    (hstep : ∀ s l, step s (l.advance k) = (move (step s l).1, (step s l).2))
    (index : Nat) (s : σ) (ls : List PhysicalLine) :
    foldLines escape step (index + k) s ls
      = ((foldLines escape step index s ls).1.map move, (foldLines escape step index s ls).2) := by
  fun_induction foldLines escape step index s ls with
  | case1 => simp [foldLines]
  | case2 index s l rest joined stepped more ih =>
    have hfirst :
        step s (.ofPieces (index + k) joined.1 joined.2.1) = (move stepped.1, stepped.2) :=
      hstep s (.ofPieces index joined.1 joined.2.1)
    rw [foldLines]
    simp only
    rw [hfirst, Nat.add_right_comm, ih]
    rfl

end Dockerfile
