import RobotMachine.Assembly.Assemble
import RobotMachine.Proofs.AssembledImage
import RobotMachine.Proofs.LinePlaces

/-!
# Places of errors

The first look at a source fails in the line that it is at, and it keeps the line and the columns of
everything that can still be wrong later: the operands of the statements and the first statement
that does not fit. So an error of either look is about a place in a line of the source.

* `Layout.addLine_ends`: a line keeps the places, or fails at one of its own.
* `Layout.emit_ends`: encoding fails at a place that was kept.
* `assemble_error_place`: the line and the column of every error.
-/

namespace RobotMachine

/-! ## Lines of a source -/

/-- The line of a source with a number, counted from 1. -/
def IsLineOf (lines : List (List Char)) (number : Nat) (line : List Char) : Prop :=
  0 < number ∧ lines[number - 1]? = some line

/-- The error is about a place in one of the lines. -/
def AssemblyError.StandsIn (e : AssemblyError) (lines : List (List Char)) : Prop :=
  ∃ line, IsLineOf lines e.line line ∧ IsColumnOf line e.column

theorem LineError.StandsIn.onLine {e : LineError} {lines : List (List Char)} {line : List Char}
    {number : Nat} (stands : e.StandsIn line) (isLine : IsLineOf lines number line) :
    (e.onLine number).StandsIn lines :=
  ⟨line, isLine, stands⟩

/-- The values of a statement stand in the line. -/
def StatementBody.StandsIn (line : List Char) : StatementBody → Prop
  | .instruction _ operands => ∀ o ∈ operands, o.1.StandsIn line ∧ IsColumnOf line o.2
  | .words _ values | .bytes _ values => ∀ e ∈ values, e.StandsIn line
  | .string .. => True

/-- The statement stands in its line. -/
def Statement.StandsIn (s : Statement) (lines : List (List Char)) : Prop :=
  ∃ line, IsLineOf lines s.line line ∧ IsColumnOf line s.column ∧ s.body.StandsIn line

namespace Layout

/-- The statements and the overflow of a layout stand in the lines. -/
structure StandsIn (l : Layout) (lines : List (List Char)) : Prop where
  statements : ∀ s ∈ l.statements, s.StandsIn lines
  overflow : ∀ e, l.overflow = some e → e.StandsIn lines

variable {l : Layout} {lines : List (List Char)} {line : List Char} {number : Nat} {c : Clause}
  {src : SourceLine}

namespace StandsIn

theorem empty (lines : List (List Char)) : StandsIn {} lines :=
  ⟨nofun, nofun⟩

theorem of_eq (h : l.StandsIn lines) {l' : Layout} (statements : l'.statements = l.statements)
    (overflow : l'.overflow = l.overflow) : l'.StandsIn lines := by
  obtain ⟨listed, first⟩ := h
  constructor
  · rwa [statements]
  · rwa [overflow]

theorem outgrown (h : l.StandsIn lines) (isLine : IsLineOf lines number line) {column : Nat}
    (place : IsColumnOf line column) (cause : Cause) :
    (l.outgrown number column cause).StandsIn lines := by
  refine ⟨h.statements, fun e isFirst => ?_⟩
  obtain rfl : l.overflow.getD ⟨number, column, cause⟩ = e := Option.some.inj isFirst
  cases overflow : l.overflow with
  | none => exact ⟨line, isLine, place⟩
  | some e => exact h.overflow e overflow

theorem addStatement (h : l.StandsIn lines) {s : Statement} (stands : s.StandsIn lines)
    (dataLength : Nat) : (l.addStatement s dataLength).StandsIn lines :=
  ⟨List.forall_mem_cons.mpr ⟨stands, h.statements⟩, h.overflow⟩

theorem alignForWords (h : l.StandsIn lines) (directive : Option Directive) :
    (l.alignForWords directive).StandsIn lines := by
  unfold Layout.alignForWords
  split
  · exact h.of_eq rfl rfl
  · exact h

theorem settleWaiting (h : l.StandsIn lines) (directive : Option Directive) :
    (l.settleWaiting directive).StandsIn lines := by
  unfold Layout.settleWaiting
  split
  · exact h
  · split
    · exact h.of_eq rfl rfl
    · exact h.of_eq rfl rfl

end StandsIn

/-! ## One line -/

theorem define_ends (h : l.StandsIn lines) {name : Fragment} (part : name.IsPartOf line) (v : Int) :
    Except.Ends (·.StandsIn lines) (·.StandsIn line) (l.define name v) := by
  rw [define]
  split
  · exact .error part.isColumnOf
  · split
    · exact .error part.isColumnOf
    · exact .ok (h.of_eq rfl rfl)

theorem addLabel_ends (h : l.StandsIn lines) (cut : src.IsCutFrom line) :
    Except.Ends (·.StandsIn lines) (·.StandsIn line) (l.addLabel src) := by
  rw [addLabel]
  split
  · exact .ok h
  · next label labelled =>
    refine (define_ends h (cut.label label labelled) _).bind fun defined stands => ?_
    split
    · exact .ok (stands.of_eq rfl rfl)
    · exact .ok stands

theorem select_ends {head : Fragment} (part : head.IsPartOf line) (operands : List Operand) :
    FailsIn line (Opcode.select head operands) := by
  simp only [Opcode.select]
  split
  · exact .ok trivial
  · split
    · exact .error part.isColumnOf
    · exact .error part.isColumnOf

theorem addInstruction_ends (h : l.StandsIn lines) (isLine : IsLineOf lines number line)
    (cut : c.IsCutFrom line) :
    Except.Ends (·.StandsIn lines) (·.StandsIn line) (l.addInstruction number c) := by
  have head := cut.head.isColumnOf
  rw [addInstruction]
  split
  · exact .error head
  have operands : Except.Ends (∀ o ∈ ·, o.1.StandsIn line ∧ IsColumnOf line o.2) (·.StandsIn line)
      (c.operands.mapM fun f => (Operand.parse f).map fun o => (o, f.column)) :=
    .mapM fun f member => (Operand.parse_ends (cut.operands f member)).map fun o stands =>
      ⟨stands, (cut.operands f member).isColumnOf⟩
  refine operands.bind fun operands stand => ?_
  refine Except.Ends.bind (select_ends cut.head _) fun opcode _ => .ok ?_
  have statement : Statement.StandsIn ⟨number, c.head.column, .instruction opcode operands⟩ lines :=
    ⟨line, isLine, head, stand⟩
  dsimp only
  split
  · exact (h.addStatement statement l.dataLength).of_eq rfl rfl
  · have stands := h.outgrown isLine head .codeTooLarge
    exact (stands.addStatement statement l.dataLength).of_eq rfl rfl

theorem expectSymbolName_ends {f : Fragment} (part : f.IsPartOf line) :
    FailsIn line (expectSymbolName f) := by
  rw [expectSymbolName]
  split
  · exact .ok trivial
  · exact .error part.isColumnOf

theorem addConstant_ends (h : l.StandsIn lines) {symbol value : Fragment}
    (partSymbol : symbol.IsPartOf line) (partValue : value.IsPartOf line) :
    Except.Ends (·.StandsIn lines) (·.StandsIn line) (l.addConstant symbol value) := by
  rw [addConstant]
  refine Except.Ends.bind (expectSymbolName_ends partSymbol) fun _ _ => ?_
  refine (Expression.parse_ends partValue).bind fun e stands => ?_
  refine Except.Ends.bind (Expression.failsIn_evaluate stands l.symbols) fun v _ => ?_
  split
  · exact define_ends h partSymbol v
  · exact .error partValue.isColumnOf

theorem stringOperand_ends {f : Fragment} (part : f.IsPartOf line) (terminated : Bool) :
    FailsIn line (stringOperand terminated f) := by
  rw [stringOperand]
  split
  · next opens => exact (Fragment.failsIn_toStringBytes part opens).map _
  · exact .error part.isColumnOf

theorem addData_ends (h : l.StandsIn lines) (isLine : IsLineOf lines number line)
    (cut : c.IsCutFrom line) (d : Directive) :
    Except.Ends (·.StandsIn lines) (·.StandsIn line) (l.addData number d c) := by
  have statement (body : StatementBody) (stands : body.StandsIn line) (dataLength : Nat) :
      (l.addStatement ⟨number, c.head.column, body⟩ dataLength).StandsIn lines :=
    h.addStatement ⟨line, isLine, cut.head.isColumnOf, stands⟩ dataLength
  have values : Except.Ends (∀ e ∈ ·, e.StandsIn line) (·.StandsIn line)
      (c.operands.mapM Expression.parse) :=
    .mapM fun f member => Expression.parse_ends (cut.operands f member)
  rw [addData.eq_def]
  dsimp only
  split
  · exact values.bind fun values stand => .ok (statement (.words _ _) stand _)
  · exact values.bind fun values stand => .ok (statement (.bytes _ _) stand _)
  · have strings : FailsIn line (c.operands.mapM (stringOperand (d ≠ .ascii))) :=
      .mapM fun f member => stringOperand_ends (cut.operands f member) _
    exact Except.Ends.bind strings fun strings _ => .ok (statement (.string _ _) trivial _)

theorem addRoom_ends (h : l.StandsIn lines) {amount : Fragment} (part : amount.IsPartOf line)
    (d : Directive) : Except.Ends (·.StandsIn lines) (·.StandsIn line) (l.addRoom d amount) := by
  rw [addRoom]
  refine (Expression.parse_ends part).bind fun e stands => ?_
  refine Except.Ends.bind (Expression.failsIn_evaluate stands l.symbols) fun v _ => ?_
  split
  · split
    · exact .ok (h.of_eq rfl rfl)
    · exact .error part.isColumnOf
  · split
    · exact .ok (h.of_eq rfl rfl)
    · exact .error part.isColumnOf

theorem addDataDirective_ends (h : l.StandsIn lines) (isLine : IsLineOf lines number line)
    (cut : c.IsCutFrom line) (d : Directive) :
    Except.Ends (·.StandsIn lines) (·.StandsIn line) (l.addDataDirective number d c) := by
  have head := cut.head.isColumnOf
  have checked (grown : Layout) (stands : grown.StandsIn lines) :
      (if grown.dataLength ≤ regionSize then grown
        else grown.outgrown number c.head.column .dataTooLarge).StandsIn lines := by
    split
    · exact stands
    · exact stands.outgrown isLine head _
  simp only [addDataDirective]
  split
  · exact .error head
  split
  · exact .error head
  next first others operands =>
  have parts := cut.operands
  rw [operands, List.forall_mem_cons] at parts
  split
  · split
    · exact (addRoom_ends h parts.1 d).bind fun grown stands => .ok (checked grown stands)
    · exact .error (parts.2 _ List.mem_cons_self).isColumnOf
  · exact (addData_ends h isLine cut d).bind fun grown stands => .ok (checked grown stands)

theorem addDirective_ends (h : l.StandsIn lines) (isLine : IsLineOf lines number line)
    (cut : c.IsCutFrom line) (d : Directive) :
    Except.Ends (·.StandsIn lines) (·.StandsIn line) (l.addDirective number d c) := by
  have head := cut.head.isColumnOf
  have parts := cut.operands
  cases d with
  | text | data =>
    simp only [addDirective]
    split
    · exact .ok (h.of_eq rfl rfl)
    · next extra others operands =>
      rw [operands] at parts
      exact .error (parts extra List.mem_cons_self).isColumnOf
  | global | globl =>
    simp only [addDirective]
    split
    · exact .error head
    · have names : FailsIn line (c.operands.forM expectSymbolName) :=
        .forM fun f member => expectSymbolName_ends (parts f member)
      exact Except.Ends.map names fun _ _ => h
  | equ | set =>
    simp only [addDirective]
    split
    · next symbol value operands =>
      rw [operands] at parts
      exact addConstant_ends h (parts symbol (by simp)) (parts value (by simp))
    · exact .error head
  | word | byte | space | skip | ascii | asciz | string | align =>
    exact addDataDirective_ends h isLine cut _

/-- A line keeps the places of what stands in front of it, or fails at a place of its own. -/
theorem addLine_ends (h : l.StandsIn lines) (isLine : IsLineOf lines number line)
    (cut : src.IsCutFrom line) :
    Except.Ends (·.StandsIn lines) (·.StandsIn line) (l.addLine number src) := by
  rw [addLine]
  refine (addLabel_ends (h.alignForWords _) cut).bind fun labelled stands => ?_
  split
  · exact .ok stands
  next c clause =>
  have cutClause := cut.clause c clause
  dsimp only
  split
  · exact addDirective_ends (stands.settleWaiting _) isLine cutClause _
  · split
    · exact .error cutClause.head.isColumnOf
    · exact addInstruction_ends (stands.settleWaiting _) isLine cutClause

/-! ## All lines -/

theorem addLines_ends (front : List (List Char)) {texts : List (List Char)}
    (h : l.StandsIn (front ++ texts)) :
    Except.Ends (·.StandsIn (front ++ texts)) (·.StandsIn (front ++ texts))
      (l.addLines (front.length + 1) texts) := by
  induction texts generalizing front l with
  | nil => exact .ok h
  | cons text texts ih =>
    have isLine : IsLineOf (front ++ text :: texts) (front.length + 1) text :=
      ⟨Nat.succ_pos _, by simp⟩
    have added := (SourceLine.scan_ends text).bind fun src cut => addLine_ends h isLine cut
    rw [addLines]
    split
    · next next_ok =>
      rw [next_ok] at added
      cases added with
      | ok stands =>
        rw [List.append_cons] at stands ⊢
        have rest := ih _ stands
        rwa [List.length_append] at rest
    · next failed =>
      rw [failed] at added
      exact .error (added.of_error.onLine isLine)

theorem ofLines_ends (lines : List (List Char)) :
    Except.Ends (·.StandsIn lines) (·.StandsIn lines) (ofLines lines) :=
  addLines_ends [] (.empty lines)

end Layout

/-! ## Encoding -/

theorem Expression.StandsIn.symbols {e : Expression} {line : List Char} (stands : e.StandsIn line) :
    ∀ s ∈ e.symbols, IsColumnOf line s.2 := by
  intro s member
  obtain ⟨t, listed, isSymbol⟩ := List.mem_filterMap.mp member
  split at isSymbol
  · cases isSymbol
    exact stands.terms t listed
  · cases isSymbol

namespace Statement

variable {s : Statement} {lines : List (List Char)} {line : List Char}

theorem standsIn_of_mem_expressions (stands : s.body.StandsIn line) :
    ∀ e ∈ s.expressions, e.StandsIn line := by
  intro e member
  simp only [expressions] at member
  split at member
  · next body =>
    rw [body] at stands
    obtain ⟨o, listed, isExpression⟩ := List.mem_filterMap.mp member
    exact (stands o listed).1 e isExpression
  · next body =>
    rw [body] at stands
    exact stands e member
  · next body =>
    rw [body] at stands
    exact stands e member
  · cases member

/-- A value that does not fit is blamed on an operand, or on the head if no operand has a value. -/
theorem failsIn_emitInstruction {column : Nat} {operands : List (Operand × Nat)}
    (place : IsColumnOf line column)
    (stand : ∀ o ∈ operands, o.1.StandsIn line ∧ IsColumnOf line o.2) (table : SymbolTable)
    (opcode : Opcode) : FailsIn line (emitInstruction table column opcode operands) := by
  have values : FailsIn line (operands.mapM fun o => o.1.evaluate table) :=
    .mapM fun o member => Operand.failsIn_evaluate (stand o member).1 table
  refine Except.Ends.bind values fun values _ => ?_
  dsimp only
  split
  · exact .ok trivial
  · refine .error ?_
    change IsColumnOf line (Option.getD _ column)
    cases found : operands.find? fun o => o.1.expression?.isSome with
    | none => exact place
    | some o => exact (stand o (List.mem_of_find?_eq_some found)).2

theorem failsIn_emitWord {e : Expression} (stands : e.StandsIn line) (table : SymbolTable) :
    FailsIn line (emitWord table e) := by
  refine Except.Ends.bind (Expression.failsIn_evaluate stands table) fun v _ => ?_
  split
  · exact .ok trivial
  · exact .error stands.column

theorem failsIn_emitByte {e : Expression} (stands : e.StandsIn line) (table : SymbolTable) :
    FailsIn line (emitByte table e) := by
  refine Except.Ends.bind (Expression.failsIn_evaluate stands table) fun v _ => ?_
  split
  · exact .ok trivial
  · exact .error stands.column

theorem failsIn_emit (place : IsColumnOf line s.column) (stands : s.body.StandsIn line)
    (table : SymbolTable) : FailsIn line (s.emit table) := by
  rw [emit]
  split
  · next body =>
    rw [body] at stands
    exact (failsIn_emitInstruction place stands table _).map _
  · next body =>
    rw [body] at stands
    exact FailsIn.map (.mapM fun e member => failsIn_emitWord (stands e member) table) _
  · next body =>
    rw [body] at stands
    exact FailsIn.map (.mapM fun e member => failsIn_emitByte (stands e member) table) _
  · exact .ok trivial

theorem standsIn_of_undefinedIn {table : SymbolTable} {e : AssemblyError} (stands : s.StandsIn lines)
    (undefined : Layout.undefinedIn table s = some e) : e.StandsIn lines := by
  obtain ⟨line, isLine, -, standsBody⟩ := stands
  obtain ⟨⟨name, column⟩, member, blamed⟩ := List.exists_of_findSome?_eq_some undefined
  obtain ⟨e', listed, isSymbol⟩ := List.mem_flatMap.mp member
  have place := (standsIn_of_mem_expressions standsBody e' listed).symbols _ isSymbol
  dsimp only at blamed
  split at blamed
  · cases blamed
  · cases blamed
    exact ⟨line, isLine, place⟩

end Statement

/-- Encoding a layout fails at a place that the layout kept. -/
theorem Layout.emit_ends {l : Layout} {lines : List (List Char)} (h : l.StandsIn lines) :
    Except.Ends (fun _ => True) (·.StandsIn lines) l.emit := by
  have listed : ∀ s ∈ l.statements.reverse, s.StandsIn lines := fun s member =>
    h.statements s (List.mem_reverse.mp member)
  rw [emit]
  split
  · next e defect =>
    refine .error ?_
    rw [defect?, Option.or_eq_some_iff] at defect
    rcases defect with undefined | ⟨-, overflow⟩
    · obtain ⟨s, member, undefined⟩ := List.exists_of_findSome?_eq_some undefined
      exact Statement.standsIn_of_undefinedIn (listed s member) undefined
    · exact h.overflow e overflow
  · refine Except.Ends.bind (.mapM (S := fun _ => True) fun s member => ?_) fun _ _ => .ok trivial
    obtain ⟨line, isLine, place, stands⟩ := listed s member
    exact (Statement.failsIn_emit place stands l.symbols).mapError fun e standsError =>
      standsError.onLine isLine

/-! ## Sources -/

theorem assemble_error_stands {source : String} {e : AssemblyError}
    (failed : assemble source = .error e) : e.StandsIn (linesOf source.toList) := by
  have ends : Except.Ends (fun _ => True) (·.StandsIn (linesOf source.toList)) (assemble source) :=
    (Layout.ofLines_ends _).bind fun l stands => Layout.emit_ends stands
  rw [failed] at ends
  exact ends.of_error

theorem IsColumnOf.isValid {line : List Char} {column : Nat} (place : IsColumnOf line column) :
    1 ≤ column ∧ column ≤ (String.ofList line).utf8ByteSize + 1 ∧
      String.Pos.Raw.IsValid (String.ofList line) ⟨column - 1⟩ := by
  obtain ⟨before, after, rfl, rfl⟩ := place
  refine ⟨Nat.le_add_right _ _, ?_, ?_⟩
  · rw [utf8ByteSize_ofList, utf8Length_append]
    omega
  · rw [String.Pos.Raw.isValid_ofList]
    exact ⟨before.length, by rw [List.take_left, utf8ByteSize_ofList]; simp⟩

/-- **Every error is about a place in the source.** Its line is one of the source's lines, counted
from 1, and its column is that of a place in this line: of the start of a character, or of the end
of the line. -/
theorem assemble_error_place {source : String} {e : AssemblyError}
    (failed : assemble source = .error e) :
    1 ≤ e.line ∧ e.line ≤ (linesOf source.toList).length ∧
      ∃ line, (linesOf source.toList)[e.line - 1]? = some line ∧
        1 ≤ e.column ∧ e.column ≤ (String.ofList line).utf8ByteSize + 1 ∧
        String.Pos.Raw.IsValid (String.ofList line) ⟨e.column - 1⟩ := by
  obtain ⟨line, ⟨positive, found⟩, place⟩ := assemble_error_stands failed
  have inside := (List.getElem?_eq_some_iff.mp found).1
  exact ⟨positive, by omega, line, found, place.isValid⟩

/-- A name where a string is expected, behind a string with characters of two and of three bytes. -/
def misplacedName : String :=
  "start: MOV R0, #1\n.data\n  .ascii \"é→\" , nope\n"

theorem assemble_error_place_misplacedName :
    ∃ e line, assemble misplacedName = .error e ∧ e.line = 3 ∧ e.column = 20 ∧
      (linesOf misplacedName.toList)[2]? = some line ∧
      String.Pos.Raw.IsValid (String.ofList line) ⟨19⟩ := by
  have failed : assemble misplacedName = .error ⟨3, 20, .expectedString⟩ := by
    decide +kernel
  obtain ⟨-, -, line, found, -, -, isValid⟩ := assemble_error_place failed
  exact ⟨_, line, failed, rfl, rfl, found, isValid⟩

end RobotMachine
