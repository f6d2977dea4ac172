import RobotMachine.Text.Blank

/-!
# Fragments of a line

Scanning cuts a line into smaller and smaller fragments. A fragment remembers the byte column at
which it stands in its line, so that every error can name a place.

* `Fragment.IsPartOf`: a fragment stands in a line at the column it claims.
* The operations that cut fragments give parts of whatever line the fragment is part of.
-/

namespace RobotMachine

/-- A stretch of a line with the column of its first character: 1 plus the number of bytes in
front of it. -/
structure Fragment where
  column : Nat
  text : List Char
  deriving DecidableEq, Repr

namespace Fragment

/-- A whole line. -/
def ofLine (line : List Char) : Fragment := ⟨1, line⟩

def toString (f : Fragment) : String := String.ofList f.text

/-- The fragment without its first `n` characters. -/
def drop (f : Fragment) (n : Nat) : Fragment :=
  ⟨f.column + utf8Length (f.text.take n), f.text.drop n⟩

/-- The fragment without its last character. -/
def dropLast (f : Fragment) : Fragment :=
  ⟨f.column, f.text.dropLast⟩

/-- The longest front part whose characters all satisfy `p`. -/
def takeWhile (f : Fragment) (p : Char → Bool) : Fragment :=
  ⟨f.column, f.text.takeWhile p⟩

/-- What follows the longest front part whose characters all satisfy `p`. -/
def dropWhile (f : Fragment) (p : Char → Bool) : Fragment :=
  ⟨f.column + utf8Length (f.text.takeWhile p), f.text.dropWhile p⟩

/-- The fragment from its first character on that is no ASCII blank. -/
def skipBlanks (f : Fragment) : Fragment :=
  f.dropWhile isAsciiBlank

/-- The fragment without the blanks at its two ends. -/
def trim (f : Fragment) : Fragment :=
  let g := f.dropWhile isBlank
  ⟨g.column, dropEndWhile isBlank g.text⟩

/-- The fragment stands in the line at its column. -/
def IsPartOf (f : Fragment) (line : List Char) : Prop :=
  ∃ before after, line = before ++ f.text ++ after ∧ f.column = 1 + utf8Length before

theorem isPartOf_ofLine (line : List Char) : (ofLine line).IsPartOf line :=
  ⟨[], [], by simp [ofLine], rfl⟩

theorem IsPartOf.drop {f : Fragment} {line : List Char} (h : f.IsPartOf line) (n : Nat) :
    (f.drop n).IsPartOf line := by
  obtain ⟨before, after, rfl, hcol⟩ := h
  refine ⟨before ++ f.text.take n, after, ?_, ?_⟩
  · simp [Fragment.drop]
  · simp [Fragment.drop, hcol, Nat.add_assoc]

theorem IsPartOf.dropWhile {f : Fragment} {line : List Char} (h : f.IsPartOf line)
    (p : Char → Bool) : (f.dropWhile p).IsPartOf line := by
  obtain ⟨before, after, rfl, hcol⟩ := h
  refine ⟨before ++ f.text.takeWhile p, after, ?_, ?_⟩
  · simp [Fragment.dropWhile]
  · simp [Fragment.dropWhile, hcol, Nat.add_assoc]

theorem IsPartOf.takeWhile {f : Fragment} {line : List Char} (h : f.IsPartOf line)
    (p : Char → Bool) : (f.takeWhile p).IsPartOf line := by
  obtain ⟨before, after, rfl, hcol⟩ := h
  refine ⟨before, f.text.dropWhile p ++ after, ?_, hcol⟩
  simp only [Fragment.takeWhile, List.append_assoc, List.append_cancel_left_eq]
  rw [← List.append_assoc, List.takeWhile_append_dropWhile]

theorem length_dropWhile_le (f : Fragment) (p : Char → Bool) :
    (f.dropWhile p).text.length ≤ f.text.length := by
  have := congrArg List.length (List.takeWhile_append_dropWhile (p := p) (l := f.text))
  simp only [List.length_append] at this
  simp only [Fragment.dropWhile]
  omega

theorem length_skipBlanks_le (f : Fragment) : f.skipBlanks.text.length ≤ f.text.length :=
  f.length_dropWhile_le _

theorem length_drop_lt {f : Fragment} {n : Nat} (hn : 0 < n) (h : f.text ≠ []) :
    (f.drop n).text.length < f.text.length := by
  have := List.length_pos_iff.mpr h
  simp only [Fragment.drop, List.length_drop]
  omega

end Fragment

end RobotMachine
