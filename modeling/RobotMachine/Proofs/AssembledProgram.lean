import RobotMachine.Proofs.DataExtent
import RobotMachine.Proofs.Words

/-!
# What the assembler promises of a program

A program that was assembled fits the memory regions, has one line for each code word, and each of
its code words is an instruction.

* `assemble_fitsRegions`: the sizes of an assembled program.
* `assemble_decodes`: its words are instructions.
-/

namespace RobotMachine

/-- The program fits its memory regions and has one line for each code word. -/
structure Program.FitsRegions (p : Program) : Prop where
  code_le : p.code.length ≤ regionWords
  data_le : p.data.length ≤ regionSize
  lines_eq : p.lines.length = p.code.length

variable {source : String} {p : Program}

theorem assemble_length_data (assembled : assemble source = .ok p) :
    p.data.length ≤ regionSize := by
  obtain ⟨l, laidOut, emitted⟩ := Except.bind_eq_ok_iff.mp assembled
  obtain ⟨sound, emissions, each, rfl⟩ := Layout.emit_eq_ok emitted
  have holds := Layout.HoldsData.ofLines laidOut
  calc
    (l.program emissions).data.length = l.blankData.length := holds.length_data each
    _ ≤ l.dataLength := l.length_blankData_le
    _ ≤ regionSize := holds.fits (Layout.overflow_of_defect? sound)

theorem assemble_fitsRegions (assembled : assemble source = .ok p) : p.FitsRegions := by
  have data := assemble_length_data assembled
  obtain ⟨lines, l, emissions, -, -, follows, fits, rfl, words⟩ := assemble_words assembled
  have count : (emissions.filterMap Emission.word?).length = l.codeLength := by
    rw [← words.length_eq, follows.codeLength_eq, ← numberedInstructions_map_fst, List.length_map]
  refine ⟨?_, data, ?_⟩
  · rw [Layout.program, List.length_map, count]
    exact fits
  · simp only [Layout.program, List.length_map]

theorem Clause.EncodesTo.decodes {c : Clause} {table : SymbolTable} {word : UInt32}
    (encodes : c.EncodesTo table word) : ∃ i, Instruction.decode word = .ok i := by
  obtain ⟨-, -, -, i, -, -, -, -, rfl⟩ := encodes
  exact ⟨i, i.decode_encode⟩

theorem forall_mem_of_forall₂ {α β : Type} {R : α → β → Prop} {P : β → Prop} {as : List α}
    {bs : List β} (related : List.Forall₂ R as bs) (each : ∀ a b, R a b → P b) :
    ∀ b ∈ bs, P b := by
  induction related with
  | nil => nofun
  | cons head _ ih => exact List.forall_mem_cons.mpr ⟨each _ _ head, ih⟩

/-- Every code word of an assembled program is an instruction. -/
theorem assemble_decodes (assembled : assemble source = .ok p) :
    ∀ word ∈ p.code, ∃ i, Instruction.decode word = .ok i := by
  obtain ⟨lines, l, emissions, -, -, -, -, rfl, words⟩ := assemble_words assembled
  intro word member
  obtain ⟨entry, listed, rfl⟩ := List.mem_map.mp member
  exact forall_mem_of_forall₂ words (fun _ _ encodes => encodes.1.decodes) entry listed

end RobotMachine
