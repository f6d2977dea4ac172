import Mathlib.Algebra.Order.Ring.Nat
import RobotMachine.Assembly.Layout
import RobotMachine.Proofs.ByteWalk
import RobotMachine.Text.Lines

/-!
# The width of a source

Scanning only cuts a text apart. So the head and the operands of a line are together no wider than
the line, and the lines are together no wider than the source. What a line can list is bounded by
this.

* `SourceLine.width_le_of_scan`: the width of what was found in a line.
* `sum_utf8Length_linesOf_le`: the width of all lines of a source.
-/

namespace RobotMachine

theorem utf8Length_le_of_sublist {front text : List Char} (sublist : front.Sublist text) :
    utf8Length front ≤ utf8Length text := by
  induction sublist with
  | slnil => exact Nat.le_refl _
  | cons c sublist ih => exact Nat.le_trans ih (Nat.le_add_left _ _)
  | cons_cons c sublist ih => exact Nat.add_le_add_left ih _

namespace Fragment

/-- The number of bytes of a fragment. -/
def width (f : Fragment) : Nat :=
  utf8Length f.text

end Fragment

/-- The number of bytes of all fragments of a list. -/
def totalWidth (fragments : List Fragment) : Nat :=
  (fragments.map Fragment.width).sum

/-- The number of bytes of a head and its operands. -/
def Clause.width (c : Clause) : Nat :=
  c.head.width + totalWidth c.operands

/-! ## Operands -/

theorem totalWidth_commaPieces_le (quoting : Quoting) (depth column : Nat) (text : List Char) :
    (commaPieces quoting depth column text).1.width +
      totalWidth (commaPieces quoting depth column text).2 ≤ utf8Length text := by
  induction text generalizing quoting depth column with
  | nil => exact Nat.le_refl _
  | cons c text ih =>
    rw [commaPieces]
    split
    · have rest := ih .outside 0 (column + 1)
      simp only [Fragment.width, totalWidth, List.map_cons, List.sum_cons, utf8Length] at rest ⊢
      omega
    · have rest := ih (quoting.next c)
        (if quoting = .outside then bracketDepth depth c else depth) (column + c.utf8Size)
      simp only [Fragment.width, totalWidth, utf8Length] at rest ⊢
      omega

theorem Fragment.toOperand_eq_ok {piece operand : Fragment}
    (trimmed : piece.toOperand = .ok operand) :
    operand.text ≠ [] ∧ operand.width ≤ piece.width := by
  rw [toOperand] at trimmed
  split at trimmed
  · cases trimmed
  · next more =>
    cases trimmed
    refine ⟨more, utf8Length_le_of_sublist ?_⟩
    have front : (piece.dropWhile isBlank).text.Sublist piece.text := List.dropWhile_sublist _
    refine List.Sublist.trans ?_ front
    have back := List.dropWhile_sublist (p := isBlank) (l := (piece.dropWhile isBlank).text.reverse)
    rw [← List.reverse_sublist, List.reverse_reverse] at back
    exact back

theorem totalWidth_of_toOperand {pieces operands : List Fragment}
    (trimmed : List.Forall₂ (fun piece operand => piece.toOperand = .ok operand) pieces operands) :
    operands.length ≤ totalWidth operands ∧ totalWidth operands ≤ totalWidth pieces := by
  induction trimmed with
  | nil => exact ⟨Nat.le_refl _, Nat.le_refl _⟩
  | cons head tail ih =>
    obtain ⟨more, narrower⟩ := Fragment.toOperand_eq_ok head
    have positive := utf8Length_pos more
    simp only [totalWidth, Fragment.width, List.map_cons, List.sum_cons, List.length_cons] at *
    omega

/-- Operands are not empty, and they are cut out of the text. -/
theorem totalWidth_of_splitOperands {f : Fragment} {operands : List Fragment}
    (split : f.splitOperands = .ok operands) :
    operands.length ≤ totalWidth operands ∧ totalWidth operands ≤ f.width := by
  rw [Fragment.splitOperands] at split
  split at split
  · cases split
    exact ⟨Nat.le_refl _, Nat.zero_le _⟩
  · have pieces := totalWidth_commaPieces_le .outside 0 f.column f.text
    obtain ⟨listed, narrower⟩ := totalWidth_of_toOperand (Except.mapM_eq_ok_iff.mp split)
    exact ⟨listed, Nat.le_trans narrower pieces⟩

/-! ## Strings -/

theorem utf8Size_of_escaped? {c e : Char} (escaped : escaped? c = some e) : e.utf8Size = 1 := by
  unfold escaped? at escaped
  split at escaped <;> cases escaped <;> decide

/-- A string is no longer than its literal, whose escapes are longer than what they stand for. -/
theorem length_stringBytes_le {opened column : Nat} {text : List Char} {bytes : List UInt8}
    (read : stringBytes opened column text = .ok bytes) : bytes.length ≤ utf8Length text := by
  fun_induction stringBytes opened column text generalizing bytes
  case case2 =>
    cases read
    exact Nat.zero_le _
  case case6 column c text e escaped ih =>
    obtain ⟨rest, behind, rfl⟩ := Except.map_eq_ok_iff.mp read
    have shorter := ih behind
    have positive := c.utf8Size_pos
    rw [List.length_append, String.length_utf8EncodeChar, utf8Size_of_escaped? escaped, utf8Length,
      utf8Length]
    omega
  case case7 column c text _ _ _ ih =>
    obtain ⟨rest, behind, rfl⟩ := Except.map_eq_ok_iff.mp read
    have shorter := ih behind
    rw [List.length_append, String.length_utf8EncodeChar, utf8Length]
    omega
  all_goals cases read

/-- The zero behind a string fits in the room of its opening quote. -/
theorem length_le_of_stringOperand {terminated : Bool} {f : Fragment} {bytes : List UInt8}
    (read : Layout.stringOperand terminated f = .ok bytes) : bytes.length ≤ f.width := by
  rw [Layout.stringOperand] at read
  split at read
  · next opens =>
    obtain ⟨text, split⟩ := List.head?_eq_some_iff.mp opens
    obtain ⟨string, literal, rfl⟩ := Except.map_eq_ok_iff.mp read
    have shorter := length_stringBytes_le literal
    have zero : (if terminated = true then [0] else [] : List UInt8).length ≤ 1 := by
      cases terminated <;> decide
    rw [split, List.drop_succ_cons, List.drop_zero] at shorter
    have quote : Char.utf8Size '"' = 1 := by decide
    rw [List.length_append, Fragment.width, split, utf8Length, quote]
    omega
  · cases read

theorem length_flatten_le_totalWidth {terminated : Bool} {operands : List Fragment}
    {strings : List (List UInt8)}
    (read : List.Forall₂ (fun f bytes => Layout.stringOperand terminated f = .ok bytes) operands
      strings) :
    strings.flatten.length ≤ totalWidth operands := by
  induction read with
  | nil => exact Nat.le_refl _
  | cons head tail ih =>
    rw [List.flatten_cons, List.length_append]
    exact Nat.add_le_add (length_le_of_stringOperand head) ih

/-! ## Lines -/

theorem codeText_sublist {quoting : Quoting} {opened column : Nat} {line code : List Char}
    (cut : codeText quoting opened column line = .ok code) : code.Sublist line := by
  induction line generalizing quoting opened column code with
  | nil =>
    cases quoting with
    | outside =>
      cases cut
      exact .slnil
    | inside quote => cases cut
    | escaped quote => cases cut
  | cons c line ih =>
    rw [codeText] at cut
    split at cut
    · cases cut
      exact List.nil_sublist _
    · obtain ⟨rest, before, same⟩ := Except.bind_eq_ok_iff.mp cut
      cases same
      exact (ih before).cons_cons c

namespace Fragment

theorem width_dropWhile (f : Fragment) (p : Char → Bool) :
    (f.takeWhile p).width + (f.dropWhile p).width = f.width := by
  have whole := congrArg utf8Length (List.takeWhile_append_dropWhile (p := p) (l := f.text))
  rwa [utf8Length_append] at whole

theorem width_skipBlanks_le (f : Fragment) : f.skipBlanks.width ≤ f.width :=
  Nat.le.intro ((Nat.add_comm _ _).trans (f.width_dropWhile isAsciiBlank))

theorem width_drop_le (f : Fragment) (n : Nat) : (f.drop n).width ≤ f.width :=
  utf8Length_le_of_sublist (List.drop_sublist n f.text)

theorem width_splitIdentifier {f word rest : Fragment} (more : f.text ≠ [])
    (split : f.splitIdentifier = .ok (word, rest)) :
    0 < word.width ∧ word.width + rest.width = f.width := by
  rw [splitIdentifier] at split
  split at split
  · contradiction
  · next c text same =>
    split at split
    · next starts =>
      cases split
      refine ⟨utf8Length_pos ?_, f.width_dropWhile _⟩
      rw [takeWhile, same, List.takeWhile_cons_of_pos (isIdentifierChar_of_start starts)]
      exact List.cons_ne_nil _ _
    · cases split

end Fragment

theorem Clause.width_ofHead {head rest : Fragment} {c : Clause} (made : ofHead head rest = .ok c) :
    c.head = head ∧ c.operands.length ≤ totalWidth c.operands ∧
      c.width ≤ head.width + rest.width := by
  rw [ofHead] at made
  split at made
  · cases made
    exact ⟨rfl, Nat.le_refl _, Nat.add_le_add_left (Nat.zero_le _) _⟩
  · split at made
    · obtain ⟨operands, split, rfl⟩ := Except.map_eq_ok_iff.mp made
      obtain ⟨listed, narrower⟩ := totalWidth_of_splitOperands split
      exact ⟨rfl, listed, Nat.add_le_add_left narrower _⟩
    · cases made

/-- The head of a line is not empty, nor are its operands, and all of them are cut out of the
line. -/
theorem SourceLine.width_le_of_scan {line : List Char} {src : SourceLine} {c : Clause}
    (scanned : scan line = .ok src) (clause : src.clause = some c) :
    0 < c.head.width ∧ c.operands.length ≤ totalWidth c.operands ∧ c.width ≤ utf8Length line := by
  rw [scan] at scanned
  obtain ⟨code, cut, scanned⟩ := Except.bind_eq_ok_iff.mp scanned
  have start : code.skipBlanks.width ≤ utf8Length line := by
    obtain ⟨text, isCode, rfl⟩ := Except.map_eq_ok_iff.mp cut
    exact Nat.le_trans (Fragment.width_skipBlanks_le _)
      (utf8Length_le_of_sublist (codeText_sublist isCode))
  dsimp only at scanned
  split at scanned
  · cases scanned
    cases clause
  next more =>
  obtain ⟨⟨word, rest⟩, first, scanned⟩ := Except.bind_eq_ok_iff.mp scanned
  obtain ⟨positive, parts⟩ := Fragment.width_splitIdentifier more first
  dsimp only at scanned
  split at scanned
  · obtain ⟨_, made, scanned⟩ := Except.bind_eq_ok_iff.mp scanned
    cases scanned
    cases clause
    obtain ⟨rfl, listed, narrower⟩ := Clause.width_ofHead made
    exact ⟨positive, listed, by omega⟩
  split at scanned
  · cases scanned
    cases clause
  next more =>
  obtain ⟨⟨head, behind⟩, second, scanned⟩ := Except.bind_eq_ok_iff.mp scanned
  dsimp only at scanned
  obtain ⟨_, made, scanned⟩ := Except.bind_eq_ok_iff.mp scanned
  cases scanned
  cases clause
  obtain ⟨rfl, listed, narrower⟩ := Clause.width_ofHead made
  obtain ⟨positive, headParts⟩ := Fragment.width_splitIdentifier more second
  have skipped := (rest.drop 1).width_skipBlanks_le
  have dropped := rest.width_drop_le 1
  exact ⟨positive, listed, by omega⟩

/-! ## Sources -/

theorem sum_utf8Length_linesOfPieces_le (pieces : List (List Char)) :
    ((linesOfPieces pieces).map utf8Length).sum ≤ (pieces.map utf8Length).sum := by
  fun_induction linesOfPieces pieces with
  | case1 => exact Nat.le_refl _
  | case2 => exact Nat.zero_le _
  | case3 => exact Nat.le_refl _
  | case4 piece pieces more ih =>
    have line : utf8Length (dropCarriageReturn piece) ≤ utf8Length piece := by
      rw [dropCarriageReturn]
      split
      · exact utf8Length_le_of_sublist (List.dropLast_sublist piece)
      · exact Nat.le_refl _
    exact Nat.add_le_add line ih

theorem sum_utf8Length_le_intercalate (separator : List Char) (pieces : List (List Char)) :
    (pieces.map utf8Length).sum ≤ utf8Length (separator.intercalate pieces) := by
  induction pieces with
  | nil => exact Nat.zero_le _
  | cons piece pieces ih =>
    cases pieces with
    | nil =>
      rw [List.intercalate_singleton]
      exact Nat.le_refl _
    | cons next pieces =>
      rw [List.intercalate_cons_cons, utf8Length_append, utf8Length_append, Nat.add_assoc]
      exact Nat.add_le_add_left (Nat.le_trans ih (Nat.le_add_left _ _)) _

/-- The lines of a source are no wider than the source. -/
theorem sum_utf8Length_linesOf_le (text : List Char) :
    ((linesOf text).map utf8Length).sum ≤ utf8Length text := by
  have whole : ['\n'].intercalate (text.splitOn '\n') = text := List.intercalate_splitOn '\n'
  calc ((linesOf text).map utf8Length).sum
    _ ≤ ((text.splitOn '\n').map utf8Length).sum := sum_utf8Length_linesOfPieces_le _
    _ ≤ utf8Length (['\n'].intercalate (text.splitOn '\n')) := sum_utf8Length_le_intercalate _ _
    _ = utf8Length text := by rw [whole]

end RobotMachine
