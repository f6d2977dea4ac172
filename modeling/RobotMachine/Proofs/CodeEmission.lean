import RobotMachine.Program.Listing
import RobotMachine.Proofs.CodeLayout

/-!
# The code of an assembled source

The second look at a source encodes the statements that the first one listed. Together they give
one word for each instruction, at the address that the labels before it and behind it assume.

* `Statement.words_of_emit`: the words of the emissions are those of the instructions.
* `assemble_code_layout`: the labels, the number and the meaning of the words of a program.
-/

namespace RobotMachine

/-! ## Statements -/

/-- The word of an instruction under a symbol table: that of the form that its operands fit, with
the values of the operands. -/
def Clause.EncodesTo (c : Clause) (table : SymbolTable) (word : UInt32) : Prop :=
  ∃ operands opcode values i, c.operands.mapM Operand.parse = .ok operands ∧
    opcode.IsFormOf c.head.text operands ∧
    operands.mapM (Operand.evaluate table) = .ok values ∧
    Instruction.ofOperands opcode values.flatten = .ok i ∧ word = i.encode

theorem emitInstruction_eq_ok {table : SymbolTable} {column : Nat} {opcode : Opcode}
    {operands : List (Operand × Nat)} {word : UInt32}
    (emitted : emitInstruction table column opcode operands = .ok word) :
    ∃ values i, (operands.map (·.1)).mapM (Operand.evaluate table) = .ok values ∧
      Instruction.ofOperands opcode values.flatten = .ok i ∧ word = i.encode := by
  simp only [emitInstruction] at emitted
  obtain ⟨values, evaluated, emitted⟩ := Except.bind_eq_ok_iff.mp emitted
  split at emitted
  · next i packed =>
    cases emitted
    refine ⟨values, i, ?_, packed, rfl⟩
    rw [List.mapM_map]
    exact evaluated
  · cases emitted

theorem parse_of_parseWithColumns {fragments : List Fragment} {operands : List (Operand × Nat)}
    (parsed : (fragments.mapM fun f => (Operand.parse f).map fun o => (o, f.column)) =
      .ok operands) : fragments.mapM Operand.parse = .ok (operands.map (·.1)) := by
  rw [Except.mapM_eq_ok_iff] at parsed ⊢
  rw [List.forall₂_map_right_iff]
  refine parsed.imp fun f o parsedOne => ?_
  obtain ⟨o', isOperand, rfl⟩ := Except.map_eq_ok_iff.mp parsedOne
  exact isOperand

namespace Statement

variable {table : SymbolTable} {s : Statement} {e : Emission}

theorem word_of_emit {c : Clause} {line : Nat} (emitted : s.emit table = .ok e)
    (places : c.Places line s) : ∃ word, e = .word word line ∧ c.EncodesTo table word := by
  obtain ⟨opcode, operands, parsed, form, rfl⟩ := places
  obtain ⟨word, encoded, rfl⟩ := Except.map_eq_ok_iff.mp emitted
  obtain ⟨values, i, evaluated, packed, rfl⟩ := emitInstruction_eq_ok encoded
  have parsedOnly := parse_of_parseWithColumns parsed
  exact ⟨i.encode, rfl, _, opcode, values, i, parsedOnly, form, evaluated, packed, rfl⟩

theorem word?_of_emit (emitted : s.emit table = .ok e) (data : s.isInstruction = false) :
    e.word? = none := by
  simp only [emit] at emitted
  simp only [isInstruction] at data
  split at emitted
  · next body =>
    rw [body] at data
    cases data
  · obtain ⟨-, -, rfl⟩ := Except.map_eq_ok_iff.mp emitted
    rfl
  · obtain ⟨-, -, rfl⟩ := Except.map_eq_ok_iff.mp emitted
    rfl
  · cases emitted
    rfl

/-- The words of the emissions are those of the instructions, in the same order. -/
theorem words_of_emit {statements : List Statement} {emissions : List Emission}
    (emitted : List.Forall₂ (fun s e => s.emit table = .ok e) statements emissions)
    {numbered : List (Clause × Nat)}
    (placed : List.Forall₂ (fun (c, line) s => c.Places line s) numbered
      (statements.filter isInstruction)) :
    List.Forall₂ (fun (c, line) (word, line') => c.EncodesTo table word ∧ line' = line) numbered
      (emissions.filterMap Emission.word?) := by
  induction emitted generalizing numbered with
  | nil =>
    cases placed
    exact .nil
  | @cons s e statements emissions emittedHead emittedTail ih =>
    cases instruction : s.isInstruction with
    | false =>
      rw [List.filter_cons_of_neg (by rw [instruction]; exact Bool.false_ne_true)] at placed
      rw [List.filterMap_cons_none (word?_of_emit emittedHead instruction)]
      exact ih placed
    | true =>
      rw [List.filter_cons_of_pos instruction] at placed
      obtain ⟨c, rest, places, placedRest, rfl⟩ := List.forall₂_cons_right_iff.mp placed
      obtain ⟨word, rfl, encodes⟩ := word_of_emit emittedHead places
      have isWord : (Emission.word word c.2).word? = some (word, c.2) := rfl
      rw [List.filterMap_cons_some isWord]
      exact .cons ⟨encodes, rfl⟩ (ih placedRest)

end Statement

/-! ## Symbols -/

theorem Layout.sortedSymbols_perm (l : Layout) :
    l.sortedSymbols.Perm (l.symbols.map fun (name, v) => (name, UInt32.ofInt v)) :=
  List.mergeSort_perm _ _

/-- A program publishes the value that a symbol has in the layout. -/
theorem Layout.symbol?_program {l : Layout} (nodup : (l.symbols.map (·.1)).Nodup) {name : String}
    {v : Int} (member : (name, v) ∈ l.symbols) (emissions : List Emission) :
    (l.program emissions).symbol? name = some (UInt32.ofInt v) := by
  have reordered : (l.program emissions).symbols.reverse.Perm _ :=
    (List.reverse_perm _).trans l.sortedSymbols_perm
  refine lookup_eq_some_of_mem ?_ ?_
  · rw [(reordered.map _).nodup_iff, List.map_map]
    exact nodup
  · rw [reordered.mem_iff]
    exact List.mem_map.mpr ⟨_, member, rfl⟩

/-! ## Programs -/

theorem Layout.emit_eq_ok {l : Layout} {p : Program} (emitted : l.emit = .ok p) :
    l.defect? = none ∧ ∃ emissions,
      List.Forall₂ (fun s e => s.emit l.symbols = .ok e) l.statements.reverse emissions ∧
        p = l.program emissions := by
  simp only [emit] at emitted
  split at emitted
  · cases emitted
  · next sound =>
    obtain ⟨emissions, each, isProgram⟩ := Except.bind_eq_ok_iff.mp emitted
    simp only [Except.mapM_eq_ok_iff, Except.mapError_eq_ok_iff] at each
    exact ⟨sound, emissions, each, (Except.ok.inj isProgram).symm⟩

theorem Layout.overflow_of_defect? {l : Layout} (sound : l.defect? = none) : l.overflow = none :=
  (Option.or_eq_none_iff.mp sound).2

/-- The words and lines of a program are those of the instructions of its source. -/
theorem assemble_words {source : String} {p : Program} (assembled : assemble source = .ok p) :
    ∃ lines l emissions, (linesOf source.toList).mapM SourceLine.scan = .ok lines ∧
      Layout.ofLines (linesOf source.toList) = .ok l ∧ l.Follows lines lines ∧
      l.codeLength ≤ regionWords ∧ p = l.program emissions ∧
      List.Forall₂ (fun (c, line) (word, line') => c.EncodesTo l.symbols word ∧ line' = line)
        (numberedInstructions lines) (emissions.filterMap Emission.word?) := by
  obtain ⟨l, laidOut, emitted⟩ := Except.bind_eq_ok_iff.mp assembled
  obtain ⟨lines, scanned, follows⟩ := Layout.ofLines_follows laidOut
  obtain ⟨sound, emissions, each, rfl⟩ := Layout.emit_eq_ok emitted
  have fits := follows.fits (Layout.overflow_of_defect? sound)
  have words := Statement.words_of_emit each follows.statements
  exact ⟨lines, l, emissions, scanned, laidOut, follows, fits, rfl, words⟩

/-- The instructions of a source without the numbers of their lines. -/
theorem numberedInstructions_map_fst (lines : List SourceLine) :
    (numberedInstructions lines).map (·.1) = instructionsOf lines := by
  simp only [numberedInstructions, instructionsOf, List.map_filterMap, Option.map_map]
  conv_rhs => rw [← List.zipIdx_map_fst 1 lines]
  rw [List.filterMap_map]
  congr 1
  funext entry
  exact Option.map_id'

theorem toNat_ofInt_of_lt {n : Nat} (small : n < UInt32.size) :
    (UInt32.ofInt n).toNat = n := by
  have below : (n : Int) < 2 ^ 32 := Int.ofNat_lt.mpr small
  rw [UInt32.ofInt, UInt32.toNat_ofNat', Int.emod_eq_of_lt (Int.natCast_nonneg n) below,
    Int.toNat_natCast]
  exact Nat.mod_eq_of_lt small

/-- The address of a label in the text section is the address of some word, or of the end. -/
theorem DefinesTextLabel.address_le {lines : List SourceLine} {name : String} {address : Nat}
    (defines : DefinesTextLabel lines name address) :
    address ≤ codeAddress (instructionsOf lines).length := by
  obtain ⟨i, -, -, -, -, -, -, rfl⟩ := defines
  have before : (instructionsOf (lines.take i)).length ≤ (instructionsOf lines).length :=
    ((List.take_sublist i lines).filterMap _).length_le
  exact Nat.add_le_add_left (Nat.mul_le_mul_right _ before) _

/-- Both looks at a source agree on its code. A label that is defined in the text section has the
address of the next instruction, the code has one word for each instruction in their order, and
each word is that of the operands' values under the symbols at the end of the source, wherever
these are defined. -/
theorem assemble_code_layout {source : String} {p : Program}
    (assembled : assemble source = .ok p) :
    ∃ lines l, (linesOf source.toList).mapM SourceLine.scan = .ok lines ∧
      Layout.ofLines (linesOf source.toList) = .ok l ∧
      p.symbols.Perm (l.symbols.map fun (name, v) => (name, UInt32.ofInt v)) ∧
      (∀ name address, DefinesTextLabel lines name address →
        l.symbols.value? name = some (address : Int) ∧
          (p.symbol? name).map UInt32.toNat = some address) ∧
      p.code.length = (instructionsOf lines).length ∧
      List.Forall₂ (fun c word => c.EncodesTo l.symbols word) (instructionsOf lines) p.code := by
  obtain ⟨lines, l, emissions, scanned, laidOut, follows, fits, rfl, words⟩ :=
    assemble_words assembled
  have code : List.Forall₂ (fun c word => c.EncodesTo l.symbols word) (instructionsOf lines)
      (l.program emissions).code := by
    rw [← numberedInstructions_map_fst]
    refine List.forall₂_map_left_iff.mpr (List.forall₂_map_right_iff.mpr ?_)
    exact words.imp fun _ _ encodes => encodes.1
  refine ⟨lines, l, scanned, laidOut, l.sortedSymbols_perm, fun name address defines => ?_,
    code.length_eq.symm, code⟩
  have listed : IsTextLabel lines name address := ⟨address, defines, rfl⟩
  have member := (follows.labels.value_mem name address listed).1
  have small : address < 2 ^ 32 := by
    have last := defines.address_le
    rw [← follows.codeLength_eq, codeAddress] at last
    have room : l.codeLength * wordSize ≤ regionWords * wordSize := Nat.mul_le_mul_right _ fits
    have top : codeBase.toNat + regionWords * wordSize < 2 ^ 32 := by decide
    omega
  refine ⟨?_, ?_⟩
  · rw [SymbolTable.value?, follows.labels.lookup_eq listed]
  · rw [Layout.symbol?_program follows.labels.nodup member, Option.map_some,
      toNat_ofInt_of_lt small]

/-- A branch to a label behind it, a load from the data, and a branch back. -/
def branchSource : String :=
  "start: B end\nloop: LDR R0, [box]\n B loop\nend: HALT\n.data\nbox: .word 7"

theorem assemble_code_layout_branchSource :
    ∃ (p : Program) (lines : List SourceLine) (l : Layout), assemble branchSource = .ok p ∧
      p.code = [0x5001000c, 0x41030004, 0x50010004, 0x00000000] ∧
      l.symbols.value? "end" = some 0x1000c ∧
      (p.symbol? "end").map UInt32.toNat = some 0x1000c ∧
      List.Forall₂ (fun c word => c.EncodesTo l.symbols word) (instructionsOf lines) p.code := by
  have found : (assemble branchSource).toOption.map Program.code =
      some [0x5001000c, 0x41030004, 0x50010004, 0x00000000] := by
    decide +kernel
  cases assembled : assemble branchSource with
  | error e =>
    rw [assembled] at found
    cases found
  | ok p =>
    rw [assembled] at found
    obtain ⟨lines, l, scanned, -, -, labels, -, code⟩ := assemble_code_layout assembled
    have defines : DefinesTextLabel lines "end" 0x1000c := by
      have scannedEnd : ((linesOf branchSource.toList).mapM SourceLine.scan).toOption.map
          (fun lines => (lines[3]?.bind SourceLine.label, sectionAt (lines.take 3),
            (instructionsOf (lines.take 3)).length)) =
          some (some ⟨1, ['e', 'n', 'd']⟩, .text, 3) := by
        decide +kernel
      rw [scanned] at scannedEnd
      simp only [Except.toOption, Option.map_some, Option.some.injEq, Prod.mk.injEq,
        Option.bind_eq_some_iff] at scannedEnd
      obtain ⟨⟨src, isLine, labelled⟩, inText, count⟩ := scannedEnd
      refine ⟨3, src, _, isLine, labelled, inText, by decide +kernel, ?_⟩
      rw [count]
      rfl
    obtain ⟨inLayout, inProgram⟩ := labels "end" 0x1000c defines
    exact ⟨p, lines, l, rfl, Option.some.inj found, inLayout, inProgram, code⟩

end RobotMachine
