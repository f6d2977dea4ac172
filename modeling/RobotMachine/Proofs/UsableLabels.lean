import RobotMachine.Proofs.AssembledImage
import RobotMachine.Proofs.Disassembly
import RobotMachine.Proofs.ExactSums
import RobotMachine.Proofs.LabelledLines
import RobotMachine.Proofs.OperandScan

/-!
# Labels that can be used

A label is refused where it is defined if it names a register. Where it is used it is also refused
if it only looks like a numbered register, with a number that no register has. All other labels
serve as branch targets and as addresses.

* `Operand.parse_label`, `Operand.parse_bracketed_label`: a name as an operand.
* `assemble_usable_labels`: which labels can be used, among all that can be defined.
* `assemble_unusableLabel`: one that cannot.
-/

namespace RobotMachine

/-! ## Names as operands -/

/-- An R in either case and one or more digits, whether or not a register has the number. -/
def LooksNumbered (name : List Char) : Prop :=
  ∃ r digits, name = r :: digits ∧ (r = 'r' ∨ r = 'R') ∧ digits ≠ [] ∧
    ∀ d ∈ digits, d.isDigit = true

/-- A name that is no register is either free to be a symbol or looks like a register. -/
theorem Fragment.toRegister?_of_ofName? {name : List Char}
    (noRegister : Register.ofName? name = none) (column : Nat) :
    (¬LooksNumbered name → toRegister? ⟨column, name⟩ = .ok none) ∧
      (LooksNumbered name →
        toRegister? ⟨column, name⟩ = .error ⟨column, .invalidRegister (String.ofList name)⟩) := by
  cases name with
  | nil => exact ⟨fun _ => rfl, fun ⟨_, _, same, _⟩ => nomatch same⟩
  | cons c digits =>
    have looks : LooksNumbered (c :: digits) ↔
        c.toUpper = 'R' ∧ digits ≠ [] ∧ digits.all Char.isDigit = true := by
      rw [toUpper_eq_R_iff, List.all_eq_true]
      constructor
      · rintro ⟨_, _, ⟨⟩, r, more, all⟩
        exact ⟨r, more, all⟩
      · rintro ⟨r, more, all⟩
        exact ⟨c, digits, rfl, r, more, all⟩
    simp only [toRegister?, noRegister, looks]
    exact ⟨fun other => if_neg other, fun numbered => if_pos numbered⟩

theorem isBlank_of_isIdentifierChar {c : Char} (goesOn : isIdentifierChar c = true) :
    isBlank c = false := by
  rw [isIdentifierChar_iff, isIdentifierStart_iff_toNat] at goesOn
  rw [isBlank, List.any_eq_false]
  rintro ⟨first, last⟩ listed blank
  simp only [blankRanges, List.mem_cons, Prod.mk.injEq, List.not_mem_nil, or_false] at listed
  rw [Bool.and_eq_true, decide_eq_true_eq, decide_eq_true_eq] at blank
  omega

/-- The expression is one symbol without a sign. -/
def Expression.IsSymbol (e : Expression) (name : List Char) : Prop :=
  e.terms.map Term.signed = [(false, .symbol (String.ofList name))]

namespace Expression.IsSymbol

variable {e : Expression} {name : List Char} (isSymbol : e.IsSymbol name)

include isSymbol

theorem symbols_eq : ∃ column, e.symbols = [(String.ofList name, column)] := by
  obtain ⟨start, terms⟩ := e
  obtain ⟨⟨negative, column, value⟩, rfl, same⟩ := List.map_eq_singleton_iff.mp isSymbol
  cases same
  exact ⟨column, rfl⟩

theorem evaluate_eq {table : SymbolTable} {v : Int} (fits : fitsNumber v = true)
    (found : table.value? (String.ofList name) = some v) : e.evaluate table = .ok v := by
  obtain ⟨start, terms⟩ := e
  obtain ⟨t, rfl, signed⟩ := List.map_eq_singleton_iff.mp isSymbol
  have known : t.signed.value? table = some v := by
    rw [signed, SignedValue.value?, TermValue.value?, found]
    rfl
  rw [evaluate, sum, Term.evaluate_of_value? known, Except.ok_bind, Int.zero_add, if_pos fits]
  rfl

end Expression.IsSymbol

section

variable {name : List Char} (identifier : IsIdentifier name)

include identifier

theorem IsIdentifier.passes (depth : Nat) : Passes depth depth name :=
  passes_of_forall identifier.goesOn (by decide) fun c member comma =>
    absurd comma (ne_of_holds (identifier.goesOn c member) rfl)

theorem IsIdentifier.isOperand : IsOperand name := by
  have visible (c : Char) (member : c ∈ name) : isBlank c = false :=
    isBlank_of_isIdentifierChar (identifier.goesOn c member)
  obtain ⟨c, rest, rfl, -⟩ := identifier.starts
  have more : c :: rest ≠ [] := List.cons_ne_nil c rest
  exact ⟨identifier.passes 0, ⟨c, rest, rfl, visible c List.mem_cons_self⟩,
    (c :: rest).dropLast, (c :: rest).getLast more, (List.dropLast_concat_getLast more).symm,
    visible _ (List.getLast_mem more)⟩

theorem IsIdentifier.isOperand_bracketed : IsOperand ('[' :: (name ++ [']'])) := by
  have opening : Passes 0 1 ['['] := passes_singleton rfl (by decide)
  have closing : Passes 1 0 [']'] := passes_singleton rfl (by decide)
  exact ⟨opening.append ((identifier.passes 1).append closing), ⟨'[', _, rfl, by decide⟩,
    '[' :: name, ']', rfl, by decide⟩

theorem IsIdentifier.head?_ne {c : Char} (other : isIdentifierStart c = false) :
    name.head? ≠ some c := by
  obtain ⟨d, rest, rfl, starts⟩ := identifier.starts
  rintro ⟨⟩
  exact ne_of_holds starts other rfl

theorem Expression.parse_name (column : Nat) : ∃ e, parse ⟨column, name⟩ = .ok e ∧
    e.IsSymbol name := by
  have noGap : IsGap [] := nofun
  have sum := SpellsSum.mk noGap (.mk .none (.symbol identifier) noGap) .none
  rw [List.nil_append, List.nil_append, List.append_nil, List.append_nil] at sum
  exact parse_of_spellsSum (f := ⟨column, name⟩) sum

variable (noRegister : Register.ofName? name = none) (column : Nat)

include noRegister

/-- A name on its own is a target, unless it looks like a register. -/
theorem Operand.parse_label :
    (¬LooksNumbered name → ∃ e, parse ⟨column, name⟩ = .ok (.bare e) ∧ e.IsSymbol name) ∧
      (LooksNumbered name →
        parse ⟨column, name⟩ = .error ⟨column, .invalidRegister (String.ofList name)⟩) := by
  have bare := parse_bare (f := ⟨column, name⟩) (identifier.head?_ne rfl) (identifier.head?_ne rfl)
    (identifier.head?_ne rfl)
  obtain ⟨free, numbered⟩ := Fragment.toRegister?_of_ofName? noRegister column
  refine ⟨fun other => ?_, fun looks => ?_⟩
  · obtain ⟨e, read, isSymbol⟩ := Expression.parse_name identifier column
    refine ⟨e, ?_, isSymbol⟩
    rw [bare, free other, Except.ok_bind]
    simp only [read]
    rfl
  · rw [bare, numbered looks]
    rfl

/-- A name between brackets is an address, unless it looks like a register. -/
theorem Operand.parse_bracketed_label :
    (¬LooksNumbered name → ∃ e,
        parse ⟨column, '[' :: (name ++ [']'])⟩ = .ok (.memoryAbsolute e) ∧ e.IsSymbol name) ∧
      (LooksNumbered name → ∃ column', parse ⟨column, '[' :: (name ++ [']'])⟩ =
        .error ⟨column', .invalidRegister (String.ofList name)⟩) := by
  obtain ⟨column', split⟩ :=
    Fragment.splitOperands_singleton identifier.isOperand (.inl rfl) (column + 1)
  have noNumber : name.head? ≠ some '#' := identifier.head?_ne rfl
  obtain ⟨free, numbered⟩ := Fragment.toRegister?_of_ofName? noRegister column'
  refine ⟨fun other => ?_, fun looks => ⟨column', ?_⟩⟩
  · obtain ⟨e, read, isSymbol⟩ := Expression.parse_name identifier column'
    refine ⟨e, ?_, isSymbol⟩
    rw [parse_bracketed, split, Except.ok_bind, ofMemoryParts, if_neg noNumber, free other,
      Except.ok_bind]
    simp only [read]
    rfl
  · rw [parse_bracketed, split, Except.ok_bind, ofMemoryParts, if_neg noNumber, numbered looks]
    rfl

end

/-! ## One labelled instruction -/

/-- The program of one instruction, with a label before it. -/
def Program.labelledWord (name : List Char) (word : UInt32) : Program where
  code := [word]
  lines := [1]
  symbols := [(String.ofList name, codeBase)]

namespace Layout

/-- The symbols of a source whose first line has a label and an instruction. -/
def firstLabel (name : List Char) : SymbolTable :=
  [(String.ofList name, codeBase.toNat)]

theorem value?_firstLabel (name : List Char) :
    (firstLabel name).value? (String.ofList name) = some (codeBase.toNat : Int) := by
  rw [SymbolTable.value?, firstLabel, List.lookup_cons_self]

theorem evaluate_firstLabel {name : List Char} {e : Expression} (isSymbol : e.IsSymbol name) :
    e.evaluate (firstLabel name) = .ok codeBase.toNat :=
  isSymbol.evaluate_eq (by decide) (value?_firstLabel name)

/-- An instruction whose operands use no symbol but its own label becomes its word. -/
theorem emit_labelledWord {name : List Char} {column : Nat} {opcode : Opcode}
    {operands : List (Operand × Nat)} {groups : List (List OperandValue)} {i : Instruction}
    (ownSymbol : ∀ o ∈ operands, ∀ e, o.1.expression? = some e → e.IsSymbol name)
    (evaluated : (operands.mapM fun (o, _) => o.evaluate (firstLabel name)) = .ok groups)
    (packed : Instruction.ofOperands opcode groups.flatten = .ok i) :
    emit { symbols := firstLabel name
           statements := [⟨1, column, .instruction opcode operands⟩]
           codeLength := 1 } = .ok (.labelledWord name i.encode) := by
  let s : Statement := ⟨1, column, .instruction opcode operands⟩
  have defined : undefinedIn (firstLabel name) s = none := by
    rw [undefinedIn, List.findSome?_eq_none_iff]
    intro symbol member
    obtain ⟨e, listed, uses⟩ := List.mem_flatMap.mp member
    obtain ⟨o, operand, inside⟩ := List.mem_filterMap.mp listed
    obtain ⟨place, only⟩ := (ownSymbol o operand e inside).symbols_eq
    rw [only, List.mem_singleton] at uses
    simp only [uses, value?_firstLabel]
    rfl
  have sound : defect? { symbols := firstLabel name, statements := [s], codeLength := 1 } =
      none := by
    simp only [defect?, List.reverse_singleton, List.findSome?_cons, List.findSome?_nil, defined]
    rfl
  have word : emitInstruction (firstLabel name) column opcode operands = .ok i.encode := by
    rw [emitInstruction, evaluated, Except.ok_bind]
    dsimp only
    rw [packed]
    rfl
  have emitted : s.emit (firstLabel name) = .ok (.word i.encode 1) := by
    simp only [s, Statement.emit, word, Except.ok_map]
  have sorted : [(String.ofList name, codeBase)].mergeSort (fun a b => a.1 ≤ b.1) =
      [(String.ofList name, codeBase)] := List.mergeSort_singleton _
  have program : ∀ l : Layout, l.symbols = firstLabel name → l.dataLength = wordSize →
      l.program [.word i.encode 1] = .labelledWord name i.encode := by
    intro l symbols noData
    rw [Program.labelledWord, ← sorted, Layout.program, sortedSymbols, symbols, blankData, noData]
    rfl
  change emit { symbols := firstLabel name, statements := [s], codeLength := 1 } = _
  rw [emit, sound]
  simp only [List.reverse_singleton, List.mapM_cons, List.mapM_nil]
  rw [emitted]
  exact congrArg Except.ok (program _ rfl rfl)

/-- A name that is defined is no register and not the mailbox. -/
theorem name_of_define {l l' : Layout} {name : Fragment} {v : Int}
    (defined : l.define name v = .ok l') :
    Register.ofName? name.text = none ∧ name.toString ≠ SymbolTable.mailboxName := by
  obtain ⟨free, -⟩ := define_eq_ok defined
  rw [define] at defined
  split at defined
  · cases defined
  · next unnamed =>
    rw [Bool.not_eq_true, Option.isSome_eq_false_iff, Option.isNone_iff_eq_none] at unnamed
    rw [SymbolTable.isTaken, Bool.or_eq_false_iff, beq_eq_false_iff_ne] at free
    exact ⟨unnamed, free.1⟩

/-- A label that a line defines is no register and not the mailbox. -/
theorem name_of_addLine {l l' : Layout} {line : Nat} {src : SourceLine} {label : Fragment}
    (added : l.addLine line src = .ok l') (labelled : src.label = some label) :
    Register.ofName? label.text = none ∧ label.toString ≠ SymbolTable.mailboxName := by
  obtain ⟨_, defines, -⟩ := addLine_eq_ok added
  simp only [addLabel, labelled] at defines
  obtain ⟨defined, defines, -⟩ := Except.bind_eq_ok_iff.mp defines
  exact name_of_define defines

end Layout

/-! ## Sources of one line -/

theorem assemble_singleton {line : List Char} (noLineFeed : '\n' ∉ line) (more : line ≠ []) :
    assemble (String.ofList line) =
      (SourceLine.scan line >>= Layout.addLine {} 1).mapError (·.onLine 1) >>= Layout.emit := by
  rw [assemble, String.toList_ofList, linesOf_singleton noLineFeed more, Layout.ofLines,
    Layout.addLines]
  cases SourceLine.scan line >>= Layout.addLine {} 1 <;> rfl

/-- An instruction with a label in front of it. -/
def labelledText (name : List Char) (opcode : Opcode) (texts : List (List Char)) : List Char :=
  name ++ ':' :: ' ' :: clauseText opcode.mnemonic.toList texts

/-- Whether a character neither ends a line nor starts a comment or a literal. -/
def isInline (c : Char) : Bool :=
  !isMark c && c != '\n'

theorem isInline_of_isIdentifierChar {c : Char} (goesOn : isIdentifierChar c = true) :
    isInline c = true := by
  rw [isInline, isMark_of_isIdentifierChar goesOn, Bool.not_false, Bool.true_and, bne_iff_ne]
  exact ne_of_holds goesOn rfl

section

variable {name : List Char} {texts : List (List Char)} (named : IsIdentifier name)
  (opcode : Opcode) (operands : ∀ text ∈ texts, IsOperand text)
  (inline : ∀ text ∈ texts, ∀ c ∈ text, isInline c = true)

include named operands inline

theorem assemble_labelledText : ∃ column column' fragments,
    fragments.map Fragment.text = texts ∧
      assemble (String.ofList (labelledText name opcode texts)) =
        (Layout.addLine {} 1 ⟨some ⟨column, name⟩,
          some ⟨⟨column', opcode.mnemonic.toList⟩, fragments⟩⟩).mapError (·.onLine 1) >>=
            Layout.emit := by
  have identifier := opcode.isName_mnemonic.isIdentifier
  have noMark : ∀ text ∈ texts, ∀ c ∈ text, isMark c = false := fun text member c inside =>
    (Bool.not_eq_true' _).mp (Bool.and_eq_true_iff.mp (inline text member c inside)).1
  obtain ⟨column, column', fragments, scanned, same⟩ :=
    SourceLine.scan_labelled_clauseText named identifier operands noMark
  have inName (word : List Char) (word' : IsIdentifier word) : ∀ c ∈ word, isInline c = true :=
    fun c member => isInline_of_isIdentifierChar (word'.goesOn c member)
  have whole : ∀ c ∈ labelledText name opcode texts, isInline c = true :=
    List.forall_mem_append.mpr ⟨inName name named, List.forall_mem_cons.mpr ⟨rfl,
      List.forall_mem_cons.mpr ⟨rfl, forall_mem_clauseText rfl (inName _ identifier) inline⟩⟩⟩
  have noLineFeed : '\n' ∉ labelledText name opcode texts := fun member =>
    absurd (whole _ member) (by decide)
  refine ⟨column, column', fragments, same, ?_⟩
  rw [assemble_singleton noLineFeed (named.append_ne_nil _), labelledText, scanned]
  rfl

/-- A label that can be defined is no register and not the mailbox. -/
theorem name_of_assemble {p : Program}
    (assembled : assemble (String.ofList (labelledText name opcode texts)) = .ok p) :
    Register.ofName? name = none ∧ String.ofList name ≠ SymbolTable.mailboxName := by
  obtain ⟨column, column', fragments, -, outcome⟩ :=
    assemble_labelledText named opcode operands inline
  rw [assembled] at outcome
  obtain ⟨l, added, -⟩ := Except.bind_eq_ok_iff.mp outcome.symm
  exact Layout.name_of_addLine (Except.mapError_eq_ok_iff.mp added) rfl

variable (noRegister : Register.ofName? name = none)
  (noMailbox : String.ofList name ≠ SymbolTable.mailboxName)

include noRegister noMailbox

/-- Behind a label an instruction is read as at the start of the code. -/
theorem assemble_labelledText_eq : ∃ column fragments, fragments.map Fragment.text = texts ∧
    assemble (String.ofList (labelledText name opcode texts)) =
      (Layout.addInstruction { symbols := Layout.firstLabel name } 1
        ⟨⟨column, opcode.mnemonic.toList⟩, fragments⟩).mapError (·.onLine 1) >>= Layout.emit := by
  obtain ⟨column, column', fragments, same, outcome⟩ :=
    assemble_labelledText named opcode operands inline
  have noDot := opcode.isName_mnemonic.head?_ne_dot
  rw [Layout.addLine_labelled noRegister noMailbox noDot] at outcome
  exact ⟨column', fragments, same, outcome⟩

/-- An instruction whose operands are read assembles to its word. -/
theorem assemble_labelledText_eq_ok {values : List OperandValue} {i : Instruction}
    (read : ∀ fragments : List Fragment, fragments.map Fragment.text = texts → ∃ operands,
      (fragments.mapM fun f => (Operand.parse f).map fun o => (o, f.column)) = .ok operands ∧
        Operand.allFit opcode.shapes (operands.map (·.1)) = true ∧
        (∀ o ∈ operands, ∀ e, o.1.expression? = some e → e.IsSymbol name) ∧
        ∃ groups, (operands.mapM fun (o, _) => o.evaluate (Layout.firstLabel name)) = .ok groups ∧
          groups.flatten = values)
    (packed : Instruction.ofOperands opcode values = .ok i) :
    assemble (String.ofList (labelledText name opcode texts)) =
      .ok (.labelledWord name i.encode) := by
  obtain ⟨column, fragments, same, outcome⟩ := assemble_labelledText_eq named opcode operands
    inline noRegister noMailbox
  obtain ⟨operands, parsed, fit, ownSymbol, groups, evaluated, rfl⟩ := read fragments same
  have places : Clause.Places ⟨⟨column, opcode.mnemonic.toList⟩, fragments⟩ 1
      ⟨1, column, .instruction opcode operands⟩ :=
    ⟨opcode, operands, parsed, Opcode.isFormOf_of_allFit opcode.mem_withMnemonic fit, rfl⟩
  have room : 0 < regionWords := by decide
  rw [outcome, Layout.addInstruction_of_places rfl room places]
  exact Layout.emit_labelledWord ownSymbol evaluated packed

/-- An instruction with an operand that is refused is refused for it. -/
theorem assemble_labelledText_eq_error {cause : Cause}
    (unread : ∀ fragments : List Fragment, fragments.map Fragment.text = texts → ∃ column,
      (fragments.mapM fun f => (Operand.parse f).map fun o => (o, f.column)) =
        .error ⟨column, cause⟩) :
    ∃ column, assemble (String.ofList (labelledText name opcode texts)) =
      .error ⟨1, column, cause⟩ := by
  obtain ⟨_, fragments, same, outcome⟩ := assemble_labelledText_eq named opcode operands
    inline noRegister noMailbox
  obtain ⟨column, refused⟩ := unread fragments same
  refine ⟨column, ?_⟩
  have inText : ¬(Section.text ≠ Section.text) := not_not.mpr rfl
  simp only [outcome, Layout.addInstruction, if_neg inText, refused]
  rfl

end

/-! ## Labels in use -/

namespace Instruction

/-- The branch to the start of the code. -/
def branchToStart : Instruction :=
  ⟨.b, ⟨codeBase.toNat, by decide⟩, ()⟩

/-- The load of the word at the start of the code into a register. -/
def loadFromStart (rd : Register) : Instruction :=
  ⟨.ldrAbs, rd, ⟨codeBase.toNat, by decide⟩, ()⟩

theorem ofOperands_branchToStart :
    ofOperands .b [.integer codeBase.toNat] = .ok branchToStart :=
  branchToStart.ofOperands_operandValues

theorem ofOperands_loadFromStart :
    ofOperands .ldrAbs [.register ⟨0⟩, .integer codeBase.toNat] = .ok (loadFromStart ⟨0⟩) :=
  (loadFromStart ⟨0⟩).ofOperands_operandValues

end Instruction

section

variable {name : List Char} (named : IsIdentifier name)
  (noRegister : Register.ofName? name = none)
  (noMailbox : String.ofList name ≠ SymbolTable.mailboxName)

include named noRegister noMailbox

theorem assemble_branch_label :
    (¬LooksNumbered name → assemble (String.ofList (labelledText name .b [name])) =
      .ok (.labelledWord name Instruction.branchToStart.encode)) ∧
    (LooksNumbered name → ∃ column, assemble (String.ofList (labelledText name .b [name])) =
      .error ⟨1, column, .invalidRegister (String.ofList name)⟩) := by
  have operands : ∀ text ∈ [name], IsOperand text := List.forall_mem_singleton.mpr named.isOperand
  have inline : ∀ text ∈ [name], ∀ c ∈ text, isInline c = true :=
    List.forall_mem_singleton.mpr fun c member =>
      isInline_of_isIdentifierChar (named.goesOn c member)
  refine ⟨fun other => ?_, fun looks => ?_⟩
  · refine assemble_labelledText_eq_ok named .b operands inline noRegister noMailbox
      (fun fragments same => ?_) Instruction.ofOperands_branchToStart
    obtain ⟨⟨column, _⟩, rfl, rfl⟩ := List.map_eq_singleton_iff.mp same
    obtain ⟨e, parsed, isSymbol⟩ := (Operand.parse_label named noRegister column).1 other
    refine ⟨[(.bare e, column)], ?_, rfl, ?_, ?_⟩
    · exact Except.mapM_eq_ok_iff.mpr (.cons (by rw [parsed]; rfl) .nil)
    · refine List.forall_mem_singleton.mpr ?_
      rintro e ⟨⟩
      exact isSymbol
    · refine ⟨[[.integer codeBase.toNat]], Except.mapM_eq_ok_iff.mpr (.cons ?_ .nil), rfl⟩
      exact congrArg (Except.map _) (Layout.evaluate_firstLabel isSymbol)
  · refine assemble_labelledText_eq_error named .b operands inline noRegister noMailbox
      fun fragments same => ?_
    obtain ⟨⟨column, _⟩, rfl, rfl⟩ := List.map_eq_singleton_iff.mp same
    refine ⟨column, ?_⟩
    rw [List.mapM_cons, (Operand.parse_label named noRegister column).2 looks]
    rfl

/-- The texts of a load from a label. -/
def loadTexts (name : List Char) : List (List Char) :=
  [['R', '0'], '[' :: (name ++ [']'])]

theorem assemble_load_label :
    (¬LooksNumbered name → assemble (String.ofList (labelledText name .ldrAbs (loadTexts name))) =
      .ok (.labelledWord name (Instruction.loadFromStart ⟨0⟩).encode)) ∧
    (LooksNumbered name → ∃ column,
      assemble (String.ofList (labelledText name .ldrAbs (loadTexts name))) =
        .error ⟨1, column, .invalidRegister (String.ofList name)⟩) := by
  have register (column : Nat) : Operand.parse ⟨column, ['R', '0']⟩ = .ok (.register ⟨0⟩) := rfl
  have operands : ∀ text ∈ loadTexts name, IsOperand text :=
    List.forall_mem_cons.mpr ⟨(isOperandText_name ⟨0⟩).isOperand,
      List.forall_mem_singleton.mpr named.isOperand_bracketed⟩
  have inline : ∀ text ∈ loadTexts name, ∀ c ∈ text, isInline c = true := by
    refine List.forall_mem_cons.mpr ⟨List.all_eq_true.mp rfl, List.forall_mem_singleton.mpr ?_⟩
    refine List.forall_mem_cons.mpr ⟨rfl, List.forall_mem_append.mpr ⟨fun c member => ?_, ?_⟩⟩
    · exact isInline_of_isIdentifierChar (named.goesOn c member)
    · exact List.forall_mem_singleton.mpr rfl
  have texts {fragments : List Fragment} (same : fragments.map Fragment.text = loadTexts name) :
      ∃ column column', fragments = [⟨column, ['R', '0']⟩, ⟨column', '[' :: (name ++ [']'])⟩] := by
    obtain ⟨⟨column, _⟩, _, rfl, rfl, rest⟩ := List.map_eq_cons_iff.mp same
    obtain ⟨⟨column', _⟩, rfl, rfl⟩ := List.map_eq_singleton_iff.mp rest
    exact ⟨column, column', rfl⟩
  refine ⟨fun other => ?_, fun looks => ?_⟩
  · refine assemble_labelledText_eq_ok named .ldrAbs operands inline noRegister noMailbox
      (fun fragments same => ?_) Instruction.ofOperands_loadFromStart
    obtain ⟨column, column', rfl⟩ := texts same
    obtain ⟨e, parsed, isSymbol⟩ :=
      (Operand.parse_bracketed_label named noRegister column').1 other
    refine ⟨[(.register ⟨0⟩, column), (.memoryAbsolute e, column')], ?_, rfl, ?_, ?_⟩
    · refine Except.mapM_eq_ok_iff.mpr (.cons ?_ (.cons ?_ .nil))
      · rw [register]
        rfl
      · rw [parsed]
        rfl
    · refine List.forall_mem_cons.mpr ⟨nofun, List.forall_mem_singleton.mpr ?_⟩
      rintro e ⟨⟩
      exact isSymbol
    · refine ⟨[[.register ⟨0⟩], [.integer codeBase.toNat]],
        Except.mapM_eq_ok_iff.mpr (.cons rfl (.cons ?_ .nil)), rfl⟩
      exact congrArg (Except.map _) (Layout.evaluate_firstLabel isSymbol)
  · refine assemble_labelledText_eq_error named .ldrAbs operands inline noRegister noMailbox
      fun fragments same => ?_
    obtain ⟨column, column', rfl⟩ := texts same
    obtain ⟨place, refused⟩ := (Operand.parse_bracketed_label named noRegister column').2 looks
    refine ⟨place, ?_⟩
    rw [List.mapM_cons, List.mapM_cons, register, refused]
    rfl

end

/-- **Every label that can be defined can be used, unless it looks like a numbered register.** It
is refused then, as a register that there is not. -/
theorem assemble_usable_labels {n : String} (identifier : IsIdentifier n.toList)
    (definable : ∃ p, assemble (n ++ ": HALT") = .ok p) :
    (¬LooksNumbered n.toList →
      assemble (n ++ ": B " ++ n) =
          .ok (.labelledWord n.toList Instruction.branchToStart.encode) ∧
        assemble (n ++ ": LDR R0, [" ++ n ++ "]") =
          .ok (.labelledWord n.toList (Instruction.loadFromStart ⟨0⟩).encode)) ∧
    (LooksNumbered n.toList →
      (∃ column, assemble (n ++ ": B " ++ n) = .error ⟨1, column, .invalidRegister n⟩) ∧
        ∃ column,
          assemble (n ++ ": LDR R0, [" ++ n ++ "]") = .error ⟨1, column, .invalidRegister n⟩) := by
  have halt : n ++ ": HALT" = String.ofList (labelledText n.toList .halt []) := by
    refine String.toList_inj.mp ?_
    simp only [String.toList_append, String.toList_ofList]
    rfl
  have branch : n ++ ": B " ++ n = String.ofList (labelledText n.toList .b [n.toList]) := by
    refine String.toList_inj.mp ?_
    simp only [labelledText, clauseText, List.intercalate_singleton, String.toList_append,
      String.toList_ofList, List.append_assoc]
    rfl
  have load : n ++ ": LDR R0, [" ++ n ++ "]" =
      String.ofList (labelledText n.toList .ldrAbs (loadTexts n.toList)) := by
    refine String.toList_inj.mp ?_
    simp only [labelledText, clauseText, loadTexts, List.intercalate_cons_cons,
      List.intercalate_singleton, String.toList_append, String.toList_ofList, List.append_assoc]
    rfl
  obtain ⟨p, assembled⟩ := definable
  rw [halt] at assembled
  obtain ⟨noRegister, noMailbox⟩ :=
    name_of_assemble identifier .halt (List.forall_mem_nil _) (List.forall_mem_nil _) assembled
  obtain ⟨branches, noBranch⟩ := assemble_branch_label identifier noRegister noMailbox
  obtain ⟨loads, noLoad⟩ := assemble_load_label identifier noRegister noMailbox
  rw [String.ofList_toList] at noBranch noLoad
  rw [branch, load]
  exact ⟨fun other => ⟨branches other, loads other⟩, fun looks => ⟨noBranch looks, noLoad looks⟩⟩

theorem assemble_usable_labels_loop :
    (assemble "loop: B loop" =
        .ok { code := [0x50010000], lines := [1], symbols := [("loop", codeBase)] } ∧
      assemble "loop: LDR R0, [loop]" =
        .ok { code := [0x41010000], lines := [1], symbols := [("loop", codeBase)] }) ∧
      ∃ column, assemble "r015: B r015" = .error ⟨1, column, .invalidRegister "r015"⟩ := by
  constructor
  · have identifier : IsIdentifier "loop".toList := ⟨⟨'l', _, rfl, rfl⟩, List.all_eq_true.mp rfl⟩
    have definable : assemble ("loop" ++ ": HALT") = .ok (.labelledHalt "loop".toList) := by
      decide +kernel
    have other : ¬LooksNumbered "loop".toList := by
      rintro ⟨_, _, ⟨⟩, r | r, -⟩ <;> cases r
    exact (assemble_usable_labels identifier ⟨_, definable⟩).1 other
  · have identifier : IsIdentifier "r015".toList := ⟨⟨'r', _, rfl, rfl⟩, List.all_eq_true.mp rfl⟩
    have definable : assemble ("r015" ++ ": HALT") = .ok (.labelledHalt "r015".toList) := by
      decide +kernel
    have looks : LooksNumbered "r015".toList :=
      ⟨_, "015".toList, rfl, .inl rfl, by decide, List.all_eq_true.mp rfl⟩
    exact ((assemble_usable_labels identifier ⟨_, definable⟩).2 looks).1

theorem assemble_unusableLabel :
    IsIdentifier "R15".toList ∧ assemble "R15: HALT" = .ok (.labelledHalt "R15".toList) ∧
      assemble "R15: B R15" = .error ⟨1, 8, .invalidRegister "R15"⟩ ∧
      assemble "R15: LDR R0, [R15]" = .error ⟨1, 15, .invalidRegister "R15"⟩ := by
  have identifier : IsIdentifier "R15".toList := ⟨⟨'R', _, rfl, rfl⟩, List.all_eq_true.mp rfl⟩
  exact ⟨identifier, by decide +kernel, by decide +kernel, by decide +kernel⟩

end RobotMachine
