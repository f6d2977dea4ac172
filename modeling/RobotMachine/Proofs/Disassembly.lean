import RobotMachine.Proofs.CodeLayout
import RobotMachine.Proofs.OperandText

/-!
# Disassembly assembles again

The text of an instruction is a line of source. A source that consists of the texts of decoded
words is laid out without labels or data, and assembles to these words.

* `Instruction.exists_statement`: the line of an instruction is laid out as its statement.
* `assemble_disassembly`: the whole source.
-/

namespace RobotMachine

/-! ## One instruction -/

theorem Opcode.isName_mnemonic (op : Opcode) : IsName op.mnemonic.toList := by
  have starts : ∀ op ∈ all, op.mnemonic.toList.head?.any Char.isAlpha = true := by decide +kernel
  have alphanum : ∀ op ∈ all, op.mnemonic.toList.all Char.isAlphanum = true := by decide +kernel
  exact .of_checks (starts op (mem_all op)) (alphanum op (mem_all op))

theorem Opcode.mem_withMnemonic (op : Opcode) : op ∈ withMnemonic op.mnemonic.toList := by
  have upper : ∀ op ∈ all, op.mnemonic.toList.map Char.toUpper = op.mnemonic.toList := by
    decide +kernel
  exact mem_withMnemonic_iff.mpr (upper op (mem_all op)).symm

theorem toList_text (i : Instruction) :
    i.text.toList = clauseText i.opcode.mnemonic.toList
      ((operandTexts i.opcode.shapes i.operandValues).map String.toList) := by
  rw [Instruction.text]
  cases operandTexts i.opcode.shapes i.operandValues with
  | nil => rfl
  | cons text texts =>
    have space : " ".toList = [' '] := rfl
    have comma : ", ".toList = [',', ' '] := rfl
    dsimp only
    rw [String.toList_append, String.toList_append, String.toList_intercalate, space, comma,
      List.append_assoc]
    rfl

/-- The statement has no undefined symbols and becomes the word, whatever the symbols are. -/
structure Statement.BecomesWord (s : Statement) (word : UInt32) (line : Nat) : Prop where
  emit_eq : ∀ table, s.emit table = .ok (.word word line)
  undefinedIn_eq : ∀ table, Layout.undefinedIn table s = none

/-- The text of an instruction is scanned to a clause whose statement becomes its word. -/
theorem Instruction.exists_statement (i : Instruction) (line : Nat) :
    ∃ c s, SourceLine.scan i.text.toList = .ok { clause := some c } ∧
      c.head.text.head? ≠ some '.' ∧ c.Places line s ∧ s.BecomesWord i.encode line := by
  have readAll := readAll_operandTexts i.opcode.serves i.operands
  obtain ⟨fragments, scanned, same⟩ :=
    SourceLine.scan_clauseText i.opcode.isName_mnemonic readAll.isOperandText
  obtain ⟨operands, parsed, fit, noSymbols, value⟩ := readAll.exists_operands same
  refine ⟨⟨⟨1, i.opcode.mnemonic.toList⟩, fragments⟩, ⟨line, 1, .instruction i.opcode operands⟩,
    ?_, ?_, ?_, ?_, ?_⟩
  · rw [toList_text]
    exact scanned
  · exact i.opcode.isName_mnemonic.head?_ne_dot
  · exact ⟨i.opcode, operands, parsed,
      Opcode.isFormOf_of_allFit i.opcode.mem_withMnemonic fit, rfl⟩
  · intro table
    obtain ⟨groups, evaluated, flattened⟩ := value table
    have packed : ofOperands i.opcode groups.flatten = .ok i := by
      rw [flattened]
      exact i.ofOperands_operandValues
    have word : emitInstruction table 1 i.opcode operands = .ok i.encode := by
      rw [emitInstruction, evaluated, Except.ok_bind]
      dsimp only
      rw [packed]
      rfl
    simp only [Statement.emit, word, Except.ok_map]
  · intro table
    have noneNamed : (Statement.expressions
        ⟨line, 1, .instruction i.opcode operands⟩).flatMap Expression.symbols = [] := by
      rw [List.flatMap_eq_nil_iff]
      intro e member
      obtain ⟨o, listed, found⟩ := List.mem_filterMap.mp member
      exact noSymbols o listed e found
    rw [Layout.undefinedIn, noneNamed, List.findSome?_nil]

/-! ## All instructions -/

namespace Layout

/-- An instruction in the text section adds its statement, if there is room for it. -/
theorem addInstruction_of_places {l : Layout} {line : Nat} {c : Clause} {s : Statement}
    (inText : l.active = .text) (room : l.codeLength < regionWords) (places : c.Places line s) :
    l.addInstruction line c =
      .ok { l.addStatement s l.dataLength with codeLength := l.codeLength + 1 } := by
  obtain ⟨opcode, operands, parsed, form, rfl⟩ := places
  simp only [addInstruction, if_neg (not_not.mpr inText), parsed,
    Opcode.select_eq_ok_iff.mpr form, Except.ok_bind, if_pos room]
  rfl

/-- A layout with nothing but instructions. -/
def ofStatements (statements : List Statement) : Layout :=
  { statements := statements.reverse, codeLength := statements.length }

variable {statements : List Statement}

theorem addInstruction_ofStatements {line : Nat} {c : Clause} {s : Statement}
    (room : statements.length < regionWords) (places : c.Places line s) :
    (ofStatements statements).addInstruction line c =
      .ok (ofStatements (statements ++ [s])) := by
  have reversed : (statements ++ [s]).reverse = s :: statements.reverse := List.reverse_concat
  have counted : (statements ++ [s]).length = statements.length + 1 := List.length_append
  rw [addInstruction_of_places rfl room places, ofStatements, ofStatements, reversed, counted]
  rfl

theorem addLine_ofStatements {line : Nat} {c : Clause} {s : Statement}
    (room : statements.length < regionWords) (noDot : c.head.text.head? ≠ some '.')
    (places : c.Places line s) :
    (ofStatements statements).addLine line { clause := some c } =
      .ok (ofStatements (statements ++ [s])) := by
  have noDirective := Directive.ofName?_eq_none noDot
  have unaligned : (ofStatements statements).alignForWords none = ofStatements statements := rfl
  have unlabelled : (ofStatements statements).addLabel { clause := some c } =
      .ok (ofStatements statements) := rfl
  have unsettled : (ofStatements statements).settleWaiting none = ofStatements statements := rfl
  simp only [addLine, Option.bind_some, noDirective, unaligned, unlabelled, Except.ok_bind,
    unsettled, if_neg noDot]
  exact addInstruction_ofStatements room places

/-- Lines that are instructions add their statements. -/
theorem addLines_ofStatements {is : List Instruction}
    (room : statements.length + is.length ≤ regionWords) :
    ∃ added, (ofStatements statements).addLines (statements.length + 1)
        (is.map fun i => i.text.toList) = .ok (ofStatements (statements ++ added)) ∧
      List.Forall₂ (fun (i, line) s => s.BecomesWord i.encode line)
        (is.zipIdx (statements.length + 1)) added := by
  -- the number of a line is read off the statements before it, so these stay general
  induction is generalizing statements with
  | nil =>
    refine ⟨[], ?_, .nil⟩
    rw [List.append_nil]
    rfl
  | cons i is ih =>
    obtain ⟨c, s, scanned, noDot, places, becomes⟩ := i.exists_statement (statements.length + 1)
    rw [List.length_cons] at room
    have roomHere : statements.length < regionWords := by omega
    have line := addLine_ofStatements roomHere noDot places
    have next : (statements ++ [s]).length = statements.length + 1 := List.length_append
    have shorter : (statements ++ [s]).length + is.length ≤ regionWords := by
      rw [next]
      omega
    obtain ⟨added, addedAll, becomesAll⟩ := ih shorter
    rw [next] at addedAll becomesAll
    refine ⟨s :: added, ?_, ?_⟩
    · rw [List.map_cons, addLines, scanned, Except.ok_bind, line]
      dsimp only
      rw [addedAll, List.append_assoc]
      rfl
    · rw [List.zipIdx_cons]
      exact .cons becomes becomesAll

section

variable {words : List (UInt32 × Nat)}
  (become : List.Forall₂ (fun (word, line) s => s.BecomesWord word line) words statements)

include become

theorem defect?_ofStatements : (ofStatements statements).defect? = none := by
  have defined : ∀ s ∈ statements, undefinedIn [] s = none := by
    induction become with
    | nil => nofun
    | cons head tail ih =>
      intro s member
      rcases List.mem_cons.mp member with rfl | member
      · exact head.undefinedIn_eq []
      · exact ih s member
  have none : (ofStatements statements).statements.reverse.findSome? (undefinedIn []) = none := by
    rw [ofStatements, List.reverse_reverse, List.findSome?_eq_none_iff]
    exact defined
  rw [defect?, Option.or_eq_none_iff]
  exact ⟨none, rfl⟩

theorem mapM_emit_ofStatements :
    statements.mapM (fun s => (s.emit []).mapError (·.onLine s.line)) =
      .ok (words.map fun (word, line) => Emission.word word line) := by
  rw [Except.mapM_eq_ok_iff, List.forall₂_map_right_iff]
  refine List.Forall₂.flip (become.imp fun word s becomes => ?_)
  rw [flip, becomes.emit_eq]
  rfl

end

/-- Without data and symbols a program consists of its words. -/
theorem program_ofStatements (words : List (UInt32 × Nat)) :
    (ofStatements statements).program (words.map fun (word, line) => Emission.word word line) =
      { code := words.map (·.1), data := [],
        lines := words.map fun (_, line) => UInt32.ofNat line, symbols := [] } := by
  have noData : (words.map fun (word, line) => Emission.word word line).foldl Emission.putInto
      (ofStatements statements).blankData = [] := by
    induction words with
    | nil => rfl
    | cons word words ih => exact ih
  have kept : (words.map fun (word, line) => Emission.word word line).filterMap Emission.word? =
      words := by
    rw [List.filterMap_map]
    exact List.filterMap_some
  have noSymbols : (ofStatements statements).sortedSymbols = [] := List.mergeSort_nil
  simp only [program, kept, noData, noSymbols]

/-- Statements that become words make a program of these words. -/
theorem emit_ofStatements {words : List (UInt32 × Nat)}
    (become : List.Forall₂ (fun (word, line) s => s.BecomesWord word line) words statements) :
    (ofStatements statements).emit = .ok
      { code := words.map (·.1), data := [],
        lines := words.map fun (_, line) => UInt32.ofNat line, symbols := [] } := by
  have inOrder : (ofStatements statements).statements.reverse = statements :=
    List.reverse_reverse statements
  have noSymbols : (ofStatements statements).symbols = [] := rfl
  simp only [emit, defect?_ofStatements become, inOrder, noSymbols,
    mapM_emit_ofStatements become, Except.ok_bind, program_ofStatements]
  rfl

end Layout

/-! ## Sources -/

theorem Instruction.map_encode_of_decode {words : List UInt32} {is : List Instruction}
    (decoded : words.mapM decode = .ok is) : is.map encode = words := by
  have each := Except.mapM_eq_ok_iff.mp decoded
  clear decoded
  induction each with
  | nil => rfl
  | cons head tail ih => rw [List.map_cons, encode_of_decode head, ih]

theorem Instruction.isPlainLine_text (i : Instruction) : IsPlainLine i.text.toList := by
  rw [toList_text]
  exact isPlainLine_clauseText i.opcode.isName_mnemonic
    (readAll_operandTexts i.opcode.serves i.operands).isOperandText

/-- A source whose lines are the texts of instructions assembles to their words. -/
theorem assemble_of_linesOf {source : String} {is : List Instruction}
    (lines : linesOf source.toList = is.map fun i => i.text.toList)
    (short : is.length ≤ regionWords) :
    assemble source = .ok
      { code := is.map Instruction.encode, data := [],
        lines := (List.range' 1 is.length).map UInt32.ofNat, symbols := [] } := by
  have room : ([] : List Statement).length + is.length ≤ regionWords := by
    rw [List.length_nil, Nat.zero_add]
    exact short
  obtain ⟨statements, laidOut, become⟩ := Layout.addLines_ofStatements room
  let words := (is.zipIdx 1).map fun (i, line) => (i.encode, line)
  have becomeWords : List.Forall₂ (fun (word, line) s => s.BecomesWord word line) words
      statements := List.forall₂_map_left_iff.mpr become
  have code : words.map (·.1) = is.map Instruction.encode := by
    have instructions : (is.zipIdx 1).map Prod.fst = is := List.zipIdx_map_fst 1 is
    rw [List.map_map]
    conv_rhs => rw [← instructions, List.map_map]
    rfl
  have numbers : (words.map fun (_, line) => UInt32.ofNat line) =
      (List.range' 1 is.length).map UInt32.ofNat := by
    rw [List.map_map, ← List.zipIdx_map_snd 1 is, List.map_map]
    rfl
  have emitted := Layout.emit_ofStatements becomeWords
  rw [code, numbers] at emitted
  have ofLines : Layout.ofLines (linesOf source.toList) = .ok (Layout.ofStatements statements) := by
    rw [lines]
    exact laidOut
  rw [assemble, ofLines, Except.ok_bind]
  exact emitted

/-- The texts of decodable words, one to a line, assemble to these words and nothing else, whether
or not the last line is ended. -/
theorem assemble_disassembly {words : List UInt32} {is : List Instruction}
    (decoded : words.mapM Instruction.decode = .ok is) (short : words.length ≤ regionWords)
    {source : String}
    (written : source = "\n".intercalate (is.map Instruction.text) ∨
      source = String.join (is.map fun i => i.text ++ "\n")) :
    assemble source = .ok
      { code := words, data := [],
        lines := (List.range' 1 words.length).map UInt32.ofNat, symbols := [] } := by
  have encoded := Instruction.map_encode_of_decode decoded
  have plain : ∀ text ∈ is.map fun i => i.text.toList, IsPlainLine text := by
    intro text member
    obtain ⟨i, -, rfl⟩ := List.mem_map.mp member
    exact i.isPlainLine_text
  have lineFeed : "\n".toList = ['\n'] := rfl
  have lines : linesOf source.toList = is.map fun i => i.text.toList := by
    rcases written with rfl | rfl
    · rw [String.toList_intercalate, List.map_map, lineFeed]
      exact linesOf_intercalate plain
    · have ended : (is.map fun i => i.text ++ "\n").flatMap String.toList =
          (is.map fun i => i.text.toList).flatMap fun text => text ++ ['\n'] := by
        simp only [List.flatMap_map, String.toList_append, lineFeed]
      rw [String.toList_join, ended]
      exact linesOf_flatMap plain
  have count : is.length = words.length := by
    rw [← encoded, List.length_map]
  have assembled := assemble_of_linesOf lines (by rw [count]; exact short)
  rw [encoded, count] at assembled
  exact assembled

/-- Extreme values, the named registers, the three memory operands and a branch. -/
theorem assemble_disassembly_extremes :
    assemble ("MOV R0, #-524288\nLDR SP, [LR]\nSTRB R12, [R3, #-1]\nLSL R1, R2, #32\n" ++
        "LDR R5, [#0xfffff]\nB 0x1000c\nCMP R4, LR\nCMP R4, #32767\nRET") = .ok
      { code := [0x11080000, 0x40de0000, 0x46c3ffff, 0x31120020, 0x415fffff, 0x5001000c,
          0x3804000e, 0x39047fff, 0x5b000000]
        data := [], lines := [1, 2, 3, 4, 5, 6, 7, 8, 9], symbols := [] } := by
  let words : List UInt32 := [0x11080000, 0x40de0000, 0x46c3ffff, 0x31120020, 0x415fffff,
    0x5001000c, 0x3804000e, 0x39047fff, 0x5b000000]
  have printed : (words.mapM Instruction.decode).toOption.map
      (fun is => "\n".intercalate (is.map Instruction.text)) =
        some ("MOV R0, #-524288\nLDR SP, [LR]\nSTRB R12, [R3, #-1]\nLSL R1, R2, #32\n" ++
          "LDR R5, [#0xfffff]\nB 0x1000c\nCMP R4, LR\nCMP R4, #32767\nRET") := by
    decide +kernel
  cases decoded : words.mapM Instruction.decode with
  | error fault =>
    rw [decoded] at printed
    cases printed
  | ok is =>
    rw [decoded] at printed
    exact assemble_disassembly decoded (by decide) (.inl (Option.some.inj printed).symm)

end RobotMachine
