import RobotMachine.Proofs.AlikeLines
import RobotMachine.Proofs.CodeEmission

/-!
# Programs of lines with the same contents

Layouts that are alike are encoded to the same words and bytes. Only the lines of the words depend
on where the lines of a source stand, and they are the numbers of the lines with an instruction.

* `Layout.Alike.emit_agree`: layouts that are alike give programs with the same code, data and
  symbols.
* `instructionLines`: the numbers of the lines with an instruction.
* `Layout.emit_of_contents`: what the contents of lines say of the program of their layout.
-/

namespace RobotMachine

/-! ## Emissions -/

/-- The emissions are the same but for the lines of words. -/
inductive Emission.Alike : Emission → Emission → Prop
  | word (w : UInt32) (line line' : Nat) : Alike (.word w line) (.word w line')
  | data (offset : Nat) (bytes : List UInt8) : Alike (.data offset bytes) (.data offset bytes)

namespace Emission

variable {emissions emissions' : List Emission}

theorem words_of_alike (alike : List.Forall₂ Alike emissions emissions') :
    (emissions.filterMap word?).map (·.1) = (emissions'.filterMap word?).map (·.1) := by
  induction alike with
  | nil => rfl
  | cons head _ ih =>
    cases head with
    | word w line line' => exact congrArg (w :: ·) ih
    | data => exact ih

theorem foldl_putInto_of_alike (alike : List.Forall₂ Alike emissions emissions')
    (image : List UInt8) : emissions.foldl putInto image = emissions'.foldl putInto image := by
  induction alike generalizing image with
  | nil => rfl
  | cons head _ ih => cases head <;> exact ih _

end Emission

theorem emitInstruction_agree (table : SymbolTable) (column column' : Nat) (opcode : Opcode)
    {operands operands' : List (Operand × Nat)}
    (alike : List.Forall₂ (fun o o' => o.1.Alike o'.1) operands operands') :
    Except.Agree Eq (emitInstruction table column opcode operands)
      (emitInstruction table column' opcode operands') := by
  have values : Except.Agree (List.Forall₂ Eq)
      (operands.mapM fun o : Operand × Nat => o.1.evaluate table)
      (operands'.mapM fun o : Operand × Nat => o.1.evaluate table) :=
    .mapM alike fun _ _ alike => alike.evaluate_agree
  refine values.bind fun values values' equal => ?_
  rw [List.forall₂_eq_eq_eq] at equal
  cases equal
  dsimp only
  split
  · exact .ok rfl
  · exact .error

theorem emitWord_agree (table : SymbolTable) {e e' : Expression} (alike : e.Alike e') :
    Except.Agree Eq (emitWord table e) (emitWord table e') := by
  refine alike.evaluate_agree.bind fun v _ equal => ?_
  cases equal
  split
  · exact .ok rfl
  · exact .error

theorem emitByte_agree (table : SymbolTable) {e e' : Expression} (alike : e.Alike e') :
    Except.Agree Eq (emitByte table e) (emitByte table e') := by
  refine alike.evaluate_agree.bind fun v _ equal => ?_
  cases equal
  split
  · exact .ok rfl
  · exact .error

namespace Statement.Alike

variable {s s' : Statement} {table : SymbolTable}

theorem emit_agree (alike : s.Alike s') :
    Except.Agree Emission.Alike (s.emit table) (s'.emit table) := by
  obtain ⟨line, column, body⟩ := s
  obtain ⟨line', column', body'⟩ := s'
  change body.Alike body' at alike
  cases alike with
  | instruction opcode operands =>
    refine (emitInstruction_agree table column column' opcode operands).map fun w _ equal => ?_
    cases equal
    exact .word w line line'
  | words offset values =>
    refine (Except.Agree.mapM values fun _ _ => emitWord_agree table).map fun bytes _ equal => ?_
    rw [List.forall₂_eq_eq_eq] at equal
    cases equal
    exact .data offset _
  | bytes offset values =>
    refine (Except.Agree.mapM values fun _ _ => emitByte_agree table).map fun bytes _ equal => ?_
    rw [List.forall₂_eq_eq_eq] at equal
    cases equal
    exact .data offset _
  | string offset bytes => exact .ok (.data offset bytes)

theorem expressions (alike : s.Alike s') :
    List.Forall₂ Expression.Alike s.expressions s'.expressions := by
  obtain ⟨line, column, body⟩ := s
  obtain ⟨line', column', body'⟩ := s'
  change body.Alike body' at alike
  cases alike with
  | words _ values | bytes _ values => exact values
  | string => exact .nil
  | instruction opcode operands =>
    change List.Forall₂ _ (List.filterMap _ _) (List.filterMap _ _)
    induction operands with
    | nil => exact .nil
    | @cons o o' _ _ head _ ih =>
      obtain ⟨o, column⟩ := o
      obtain ⟨o', column'⟩ := o'
      cases head with
      | register | string => exact ih
      | immediate alike | memoryOffset _ alike | memoryAbsolute alike | bare alike =>
        exact .cons alike ih

theorem symbols_flatMap_eq {expressions expressions' : List Expression}
    (alike : List.Forall₂ Expression.Alike expressions expressions') :
    (expressions.flatMap Expression.symbols).map (·.1) =
      (expressions'.flatMap Expression.symbols).map (·.1) := by
  induction alike with
  | nil => rfl
  | cons head _ ih =>
    rw [List.flatMap_cons, List.flatMap_cons, List.map_append, List.map_append, ih,
      head.symbols_eq]

/-- The symbols of alike statements are all defined, or not all are in either. -/
theorem undefinedIn_iff (alike : s.Alike s') :
    Layout.undefinedIn table s = none ↔ Layout.undefinedIn table s' = none := by
  have defined (s : Statement) : Layout.undefinedIn table s = none ↔
      ∀ name ∈ (s.expressions.flatMap Expression.symbols).map (·.1),
        (table.value? name).isSome = true := by
    rw [Layout.undefinedIn, List.findSome?_eq_none_iff, List.forall_mem_map]
    refine forall₂_congr fun ⟨name, column⟩ _ => ?_
    dsimp only
    by_cases known : (table.value? name).isSome = true
    · rw [if_pos known]
      exact iff_of_true rfl known
    · rw [if_neg known]
      exact iff_of_false nofun known
  rw [defined, defined, symbols_flatMap_eq alike.expressions]

end Statement.Alike

/-! ## Programs -/

/-- The programs are the same but for the lines of their words. -/
structure Program.Alike (p p' : Program) : Prop where
  code_eq : p.code = p'.code
  data_eq : p.data = p'.data
  symbols_eq : p.symbols = p'.symbols

theorem Program.Alike.eq_of_lines {p p' : Program} (alike : p.Alike p')
    (same : p.lines = p'.lines) : p = p' := by
  obtain ⟨code, data, lines, symbols⟩ := p
  obtain ⟨code', data', lines', symbols'⟩ := p'
  obtain ⟨rfl, rfl, rfl⟩ := alike
  cases same
  rfl

theorem forall_mem_imp_of_forall₂ {α β : Type} {R : α → β → Prop} {P : α → Prop} {Q : β → Prop}
    {as : List α} {bs : List β} (related : List.Forall₂ R as bs)
    (each : ∀ a b, R a b → P a → Q b) (all : ∀ a ∈ as, P a) : ∀ b ∈ bs, Q b := by
  induction related with
  | nil => nofun
  | cons head _ ih =>
    obtain ⟨first, others⟩ := List.forall_mem_cons.mp all
    exact List.forall_mem_cons.mpr ⟨each _ _ head first, ih others⟩

namespace Layout.Alike

variable {l l' : Layout}

theorem defect?_iff (alike : l.Alike l') : l.defect? = none ↔ l'.defect? = none := by
  have undefined : l.statements.reverse.findSome? (undefinedIn l.symbols) = none ↔
      l'.statements.reverse.findSome? (undefinedIn l'.symbols) = none := by
    rw [List.findSome?_eq_none_iff, List.findSome?_eq_none_iff, ← alike.symbols_eq]
    have related := List.rel_reverse alike.statements
    constructor
    · refine forall_mem_imp_of_forall₂ related fun _ _ same => ?_
      exact (Statement.Alike.undefinedIn_iff same).mp
    · refine forall_mem_imp_of_forall₂ related.flip fun _ _ same => ?_
      exact (Statement.Alike.undefinedIn_iff same).mpr
  rw [defect?, defect?, Option.or_eq_none_iff, Option.or_eq_none_iff]
  exact and_congr undefined alike.overflow_iff

/-- Layouts that are alike give programs that are. -/
theorem emit_agree (alike : l.Alike l') : Except.Agree Program.Alike l.emit l'.emit := by
  have sound := alike.defect?_iff
  have emitted : Except.Agree (List.Forall₂ Emission.Alike)
      (l.statements.reverse.mapM fun s => (s.emit l.symbols).mapError (·.onLine s.line))
      (l'.statements.reverse.mapM fun s => (s.emit l'.symbols).mapError (·.onLine s.line)) := by
    refine .mapM (List.rel_reverse alike.statements) fun s s' alikeOne => ?_
    rw [← alike.symbols_eq]
    have emissions : Except.Agree Emission.Alike (s.emit l.symbols) (s'.emit l.symbols) :=
      alikeOne.emit_agree
    exact emissions.mapError _ _
  rw [emit, emit]
  cases defect : l.defect? with
  | some e =>
    have unsound : l.defect? ≠ none := by
      rw [defect]
      exact Option.some_ne_none e
    obtain ⟨e', defect'⟩ := Option.ne_none_iff_exists'.mp (mt sound.mpr unsound)
    rw [defect']
    exact .error
  | none =>
    rw [sound.mp defect]
    refine emitted.bind fun emissions emissions' alikeEmissions => .ok ⟨?_, ?_, ?_⟩
    · exact Emission.words_of_alike alikeEmissions
    · have blank : l.blankData = l'.blankData := by
        rw [blankData, blankData, alike.dataLength_eq]
      rw [program, program, blank]
      exact Emission.foldl_putInto_of_alike alikeEmissions _
    · rw [program, program, sortedSymbols, sortedSymbols, alike.symbols_eq]

end Layout.Alike

/-! ## Line numbers -/

/-- The numbers of the lines with an instruction. -/
def instructionLines (lines : List SourceLine) : List Nat :=
  (numberedInstructions lines).map (·.2)

theorem instructionLines_concat (lines : List SourceLine) (src : SourceLine) :
    instructionLines (lines ++ [src]) =
      instructionLines lines ++ if src.instruction?.isSome then [lines.length + 1] else [] := by
  rw [instructionLines, numberedInstructions_concat, List.map_append]
  cases src.instruction? <;> rfl

theorem instructionLines_congr {lines lines' : List SourceLine}
    (same : lines.map SourceLine.content = lines'.map SourceLine.content) :
    instructionLines lines = instructionLines lines' := by
  induction lines using List.reverseRecOn generalizing lines' with
  | nil =>
    rw [List.map_nil, eq_comm, List.map_eq_nil_iff] at same
    rw [same]
  | append_singleton lines src ih =>
    rw [List.map_append, List.map_singleton] at same
    obtain ⟨front, back, rfl, sameFront, sameBack⟩ := List.map_eq_append_iff.mp same.symm
    obtain ⟨src', rfl, content⟩ := List.map_eq_singleton_iff.mp sameBack
    have length := congrArg List.length sameFront
    rw [List.length_map, List.length_map] at length
    rw [instructionLines_concat, instructionLines_concat, ih sameFront.symm, length,
      SourceLine.isSome_instruction?_congr content]

/-- Lines behind others have their numbers moved up. -/
theorem instructionLines_append (front back : List SourceLine) :
    instructionLines (front ++ back) =
      instructionLines front ++ (instructionLines back).map (· + front.length) := by
  induction back using List.reverseRecOn with
  | nil => simp [instructionLines, numberedInstructions]
  | append_singleton back src ih =>
    rw [← List.append_assoc, instructionLines_concat, instructionLines_concat, ih, List.map_append,
      List.append_assoc, List.length_append]
    congr 2
    split
    · rw [List.map_singleton, Nat.add_comm front.length, Nat.add_right_comm]
    · rfl

theorem length_instructionLines (lines : List SourceLine) :
    (instructionLines lines).length = (instructionsOf lines).length := by
  rw [instructionLines, List.length_map, ← numberedInstructions_map_fst, List.length_map]

/-- The lines of a program are those of the instructions of its source. -/
theorem Layout.lines_of_emit {lines : List SourceLine} {l : Layout} {p : Program}
    (laidOut : ofScanned lines = .ok l) (emitted : l.emit = .ok p) :
    p.lines = (instructionLines lines).map UInt32.ofNat := by
  obtain ⟨-, emissions, each, rfl⟩ := emit_eq_ok emitted
  have words := Statement.words_of_emit each (follows_of_ofScanned laidOut).statements
  rw [program, instructionLines, List.map_map]
  generalize numberedInstructions lines = numbered at words
  generalize emissions.filterMap Emission.word? = placed at words
  induction words with
  | nil => rfl
  | cons head _ ih => exact congrArg₂ _ (congrArg UInt32.ofNat head.2) ih

/-- Lines with the same contents, but for lines without any, give programs that are the same but for
the lines of their words. -/
theorem Layout.emit_of_contents {lines lines' : List SourceLine} {l : Layout} {p : Program}
    (laidOut : ofScanned lines = .ok l) (emitted : l.emit = .ok p)
    (same : contentsOf lines = contentsOf lines') :
    ∃ l' p', ofScanned lines' = .ok l' ∧ l'.emit = .ok p' ∧ p.Alike p' := by
  have layouts := ofScanned_agree same
  rw [laidOut] at layouts
  obtain ⟨l', laidOut', alike⟩ := layouts.exists_ok
  have programs := alike.emit_agree
  rw [emitted] at programs
  obtain ⟨p', emitted', alikePrograms⟩ := programs.exists_ok
  exact ⟨l', p', laidOut', emitted', alikePrograms⟩

end RobotMachine
