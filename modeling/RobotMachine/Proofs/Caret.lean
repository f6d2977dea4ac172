import RobotMachine.Assembly.Diagnostic
import RobotMachine.Proofs.ByteWalk
import RobotMachine.Proofs.ErrorPlaces

/-!
# Carets

The excerpt of a diagnostic shows the line of the error and a caret under its column. A column
counts bytes, and the caret is moved by one blank for each byte of the line in front of it: it
stands under the place of the error as long as every character in front of this place is a single
byte.

* `Diagnostic.take_cover`: the text in front of a caret, from the characters that it covers.
* `assemble_caret`: the rendering of every error, and when its caret stands under the place.
-/

namespace RobotMachine

/-- The blank that keeps the width of a character: a tab for a tab, a space for every other. -/
def blankUnder (c : Char) : Char :=
  if c = '\t' then '\t' else ' '

/-- The blanks that are put under a text: one for each byte. -/
def byteCover (text : List Char) : List Char :=
  text.flatMap fun c => List.replicate c.utf8Size (blankUnder c)

theorem length_byteCover (text : List Char) : (byteCover text).length = utf8Length text := by
  induction text with
  | nil => rfl
  | cons c text ih =>
    rw [byteCover] at ih ⊢
    rw [List.flatMap_cons, List.length_append, List.length_replicate, ih, utf8Length]

theorem byteCover_append (front back : List Char) :
    byteCover (front ++ back) = byteCover front ++ byteCover back :=
  List.flatMap_append

theorem length_le_utf8Length (text : List Char) : text.length ≤ utf8Length text := by
  induction text with
  | nil => exact Nat.le_refl 0
  | cons c text ih =>
    have positive := c.utf8Size_pos
    rw [List.length_cons, utf8Length]
    omega

theorem utf8Length_eq_length_iff {text : List Char} :
    utf8Length text = text.length ↔ ∀ c ∈ text, c.utf8Size = 1 := by
  induction text with
  | nil => simp
  | cons c text ih =>
    have positive := c.utf8Size_pos
    have atLeast := length_le_utf8Length text
    rw [List.forall_mem_cons, ← ih, utf8Length, List.length_cons]
    omega

/-- The blanks have the shape of the text exactly if all its characters are single bytes. -/
theorem byteCover_eq_map_iff {text : List Char} :
    byteCover text = text.map blankUnder ↔ ∀ c ∈ text, c.utf8Size = 1 := by
  constructor
  · intro same
    have lengths := congrArg List.length same
    rw [length_byteCover, List.length_map] at lengths
    exact utf8Length_eq_length_iff.mp lengths
  · intro narrow
    induction text with
    | nil => rfl
    | cons c text ih =>
      obtain ⟨first, others⟩ := List.forall_mem_cons.mp narrow
      have rest := ih others
      rw [byteCover] at rest ⊢
      rw [List.flatMap_cons, rest, first, List.map_cons, List.replicate_one, List.singleton_append]

namespace Diagnostic

/-- What stands in front of the source line: the error, and the file with the place. -/
def heading (d : Diagnostic) (file : String) : String :=
  "error: " ++ d.kind.name ++ ": " ++ d.message ++ "\n" ++ " --> " ++ file ++ ":" ++
    toString d.line ++ ":" ++ toString d.column ++ "\n"

/-- The rendering of an error with a source line and what stands in front of the caret. -/
def withCaret (d : Diagnostic) (file : String) (shown under : List Char) : String :=
  d.heading file ++ ("     |\n" ++ padLeft 4 ' ' (toString d.line) ++ " | " ++ String.ofList shown ++
    "\n" ++ "     | " ++ String.ofList under ++ "^\n")

theorem underline_eq_take (line : List Char) (column : Nat) :
    underline line column = (byteCover line).take (column - 1) := by
  have blanks : (fun c : Char => if c = '\t' then ['\t'] else List.replicate c.utf8Size ' ') =
      fun c => List.replicate c.utf8Size (blankUnder c) := by
    funext c
    rw [blankUnder]
    split
    · next tab => rw [tab]; rfl
    · rfl
  rw [underline, byteCover, blanks]

theorem render_of_line {d : Diagnostic} {source : String} {line : List Char}
    (found : (linesOf source.toList)[d.line - 1]? = some line) (file : String) :
    d.render file source = d.withCaret file (dropEndWhile (· == '\r') line)
      (underline (dropEndWhile (· == '\r') line) d.column) := by
  rw [render, found]
  rfl

/-- The caret under a place is moved by the bytes of the text that is shown in front of it. The
text that is shown can end before the place. -/
theorem take_cover {shown before after : List Char} (isPrefix : shown <+: before ++ after) :
    (byteCover shown).take (utf8Length before) = byteCover (shown.take before.length) := by
  rcases List.prefix_or_prefix_of_prefix isPrefix (List.prefix_append before after) with
    ⟨rest, rfl⟩ | ⟨rest, rfl⟩
  · rw [List.take_of_length_le, List.take_of_length_le]
    · rw [List.length_append]
      exact Nat.le_add_right _ _
    · rw [length_byteCover, utf8Length_append]
      exact Nat.le_add_right _ _
  · rw [byteCover_append, List.take_left, ← length_byteCover, List.take_left]

end Diagnostic

/-- **Where the caret stands.** The rendering of an error shows its line without the carriage
returns at its end, and puts one blank in front of the caret for each byte that is shown in front of
the column, with a tab for a tab. So the caret stands under the place of the error, behind blanks of
the shape of the text above them, exactly if this text has single-byte characters only. -/
theorem assemble_caret {source : String} {e : AssemblyError} (failed : assemble source = .error e)
    (file : String) :
    ∃ before after, (linesOf source.toList)[e.line - 1]? = some (before ++ after) ∧
      e.column = 1 + (String.ofList before).utf8ByteSize ∧
      let shown := dropEndWhile (· == '\r') (before ++ after)
      let front := shown.take before.length
      let under := byteCover front
      e.render file source = e.diagnostic.withCaret file shown under ∧
        under.length = (String.ofList front).utf8ByteSize ∧
        (under = front.map blankUnder ↔ ∀ c ∈ front, c.utf8Size = 1) := by
  obtain ⟨line, ⟨-, found⟩, before, after, rfl, column⟩ := assemble_error_stands failed
  refine ⟨before, after, found, ?_, ?_, ?_, byteCover_eq_map_iff⟩
  · rw [utf8ByteSize_ofList, column]
  · have cover := Diagnostic.take_cover (dropEndWhile_isPrefix (· == '\r') (before ++ after))
    have width : e.diagnostic.column - 1 = utf8Length before := by
      change e.column - 1 = _
      omega
    rw [AssemblyError.render, Diagnostic.render_of_line found, Diagnostic.underline_eq_take, width,
      cover]
  · rw [length_byteCover, utf8ByteSize_ofList]

/-- A name where a string is expected, behind a tab and a string with a character of two bytes. -/
def wideFront : String :=
  ".data\n\t.ascii \"é\", x\n"

theorem assemble_caret_wideFront :
    ∃ e front, assemble wideFront = .error e ∧ front = "\t.ascii \"é\", ".toList ∧
      e.render "prog.asm" wideFront =
        e.diagnostic.withCaret "prog.asm" "\t.ascii \"é\", x".toList (byteCover front) ∧
      byteCover front ≠ front.map blankUnder := by
  have failed : assemble wideFront = .error ⟨2, 15, .expectedString⟩ := by
    decide +kernel
  obtain ⟨before, after, found, column, rendered, -, fits⟩ := assemble_caret failed "prog.asm"
  have line : (linesOf wideFront.toList)[1]? = some "\t.ascii \"é\", x".toList := by
    decide +kernel
  have text : before ++ after = "\t.ascii \"é\", x".toList :=
    Option.some.inj (found.symm.trans line)
  have bytes : utf8Length before = 14 := by
    rw [utf8ByteSize_ofList] at column
    exact Nat.add_left_cancel column.symm
  have split := splitBytes?_utf8Length before after
  rw [text, bytes] at split
  have both : splitBytes? 14 "\t.ascii \"é\", x".toList = some ("\t.ascii \"é\", ".toList, ['x']) := by
    decide +kernel
  obtain ⟨rfl, rfl⟩ := Prod.mk.inj (Option.some.inj (split.symm.trans both))
  have shown : dropEndWhile (· == '\r') "\t.ascii \"é\", x".toList = "\t.ascii \"é\", x".toList := by
    decide +kernel
  rw [text, shown] at rendered fits
  have front : "\t.ascii \"é\", x".toList.take "\t.ascii \"é\", ".toList.length =
      "\t.ascii \"é\", ".toList := by
    decide +kernel
  rw [front] at rendered fits
  refine ⟨_, _, failed, rfl, rendered, fun same => ?_⟩
  have single : 'é'.utf8Size = 1 := fits.mp same 'é' (by decide +kernel)
  exact absurd single (by decide +kernel)

/-- Behind a character of two bytes the caret stands one place too far to the right: behind the
line, where the name is its last character. -/
theorem assemble_caret_misplaced :
    assemble wideFront = .error ⟨2, 15, .expectedString⟩ ∧
      AssemblyError.render ⟨2, 15, .expectedString⟩ "prog.asm" wideFront =
        "error: syntax error: expected a string literal\n --> prog.asm:2:15\n" ++
          "     |\n   2 | \t.ascii \"é\", x\n     | \t             ^\n" ∧
      "\t             ".toList.length = "\t.ascii \"é\", ".toList.length + 1 := by
  decide +kernel

end RobotMachine
