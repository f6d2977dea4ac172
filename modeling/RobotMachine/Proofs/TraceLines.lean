import RobotMachine.Proofs.Disassembly
import RobotMachine.Proofs.MachineRuns
import RobotMachine.Proofs.StepOutcomes
import RobotMachine.Proofs.TracedRuns

/-!
# Lines of a trace

A line of a trace shows what stands in memory at the program counter, and the step behind it makes
the emulator fetch from there. Whatever the emulator fetches is what the line shows, but the line
does not ask whether the program counter is inside the program and at the start of a word. If it is
not, the line may show an instruction that is never executed. That line is the last one.

* `Glimpse.IsMarked`: the line shows no instruction.
* `Emulator.fetch_eq_ok_iff`: when the emulator fetches what stands at the program counter.
* `Emulator.Executes`: the step carries out an instruction.
* `Emulator.exists_step_of_line`: the emulator that shows a line.
* `Emulator.trace_line`: what a line tells about the step behind it.
-/

namespace RobotMachine

/-! ## Marks -/

/-- There are two question marks where an instruction would be shown. -/
def Glimpse.IsMarked (g : Glimpse) : Prop :=
  ['?', '?'] <:+: g.text.toList

instance Glimpse.decidableIsMarked (g : Glimpse) : Decidable g.IsMarked :=
  inferInstanceAs (Decidable (_ <:+: _))

theorem Instruction.not_isMarked (i : Instruction) : ¬ (Glimpse.instruction i).IsMarked := by
  intro marked
  have member : '?' ∈ i.text.toList := marked.subset List.mem_cons_self
  exact ne_of_holds (i.isPlainLine_text.isPlainChar _ member) (by decide) rfl

/-- An instruction is shown where no question marks are. -/
theorem Glimpse.not_isMarked_iff (g : Glimpse) : ¬ g.IsMarked ↔ ∃ i, g = .instruction i := by
  constructor
  · intro unmarked
    cases g with
    | instruction i => exact ⟨i, rfl⟩
    | undecodable fault =>
      refine (unmarked ⟨[], (" (" ++ fault.message ++ ")").toList, ?_⟩).elim
      simp [text]
    | unreadable => exact (unmarked ⟨[], [], rfl⟩).elim
  · intro ⟨i, shown⟩
    rw [shown]
    exact i.not_isMarked

namespace Emulator

variable {e s : Emulator} {budget k : Nat} {i : Instruction}

/-! ## Fetching -/

theorem glimpse_eq_instruction_iff :
    s.glimpse = .instruction i ↔ ∃ word, s.machine.memory.readWord s.machine.pc = .ok word ∧
      Instruction.decode word = .ok i := by
  rw [glimpse]
  constructor
  · intro shown
    cases found : s.machine.memory.readWord s.machine.pc with
    | error fault =>
      rw [found] at shown
      cases shown
    | ok word =>
      refine ⟨word, rfl, ?_⟩
      rw [found] at shown
      dsimp only at shown
      cases decoded : Instruction.decode word with
      | error reason =>
        rw [decoded] at shown
        cases shown
      | ok j =>
        rw [decoded] at shown
        cases shown
        rfl
  · intro stands
    obtain ⟨word, found, decoded⟩ := stands
    simp only [found, decoded]

theorem exists_word_of_fetch (fetched : s.fetch = .ok i) :
    s.InProgram ∧ s.IsAligned ∧ ∃ word, s.machine.memory.readWord s.machine.pc = .ok word ∧
      Instruction.decode word = .ok i := by
  have inside : s.InProgram := by
    by_contra outside
    cases (fetch_of_outside outside).symm.trans fetched
  have aligned : s.IsAligned := by
    by_contra misaligned
    cases (fetch_of_misaligned inside misaligned).symm.trans fetched
  refine ⟨inside, aligned, ?_⟩
  simp only [fetch] at fetched
  split at fetched
  · cases fetched
  split at fetched
  · cases fetched
  obtain ⟨word, found, decoded⟩ := Except.bind_eq_ok_iff.mp fetched
  exact ⟨word, Except.mapError_eq_ok_iff.mp found, Except.mapError_eq_ok_iff.mp decoded⟩

/-- The emulator fetches what stands at the program counter, if that is in the program and at the
start of a word. -/
theorem fetch_eq_ok_iff :
    s.fetch = .ok i ↔ s.glimpse = .instruction i ∧ s.InProgram ∧ s.IsAligned := by
  rw [glimpse_eq_instruction_iff]
  constructor
  · intro fetched
    obtain ⟨inside, aligned, stands⟩ := exists_word_of_fetch fetched
    exact ⟨stands, inside, aligned⟩
  · intro ⟨⟨word, found, decoded⟩, inside, aligned⟩
    exact fetch_of_decode_ok inside aligned found decoded

/-! ## Stepping -/

/-- The step carries out an instruction: it succeeds with what that stores and leaves the machine
behind it, or it fails as that does and leaves the machine alone. -/
inductive Executes (s : Emulator) (i : Instruction) : Prop
  | done {stores : List Store} {left : Emulator} :
    s.machine.perform i = .ok (stores, left.machine) → s.tick = (.ok stores, left) → Executes s i
  | fails {fault : MemoryFault} {left : Emulator} :
    s.machine.perform i = .error fault → s.tick = (.error (.memory fault), left) →
      left.machine = s.machine → Executes s i

section

variable (canStep : s.state.canStep = true)

include canStep

theorem tick_of_nextEffects_error {err : MachineError} (failed : s.nextEffects = .error err) :
    s.tick = (.error err, { s with state := .faulted }) := by
  rw [tick, if_pos canStep, failed]

/-- A step carries out the very instruction that is fetched. -/
theorem executes_of_fetch (fetched : s.fetch = .ok i) : s.Executes i := by
  cases executed : s.machine.execute i with
  | error fault =>
    have performed : s.machine.perform i = .error fault := by
      rw [Machine.perform, executed]
      rfl
    have failed := nextEffects_of_execute_error fetched executed
    exact .fails performed (tick_of_nextEffects_error canStep failed) rfl
  | ok effects =>
    obtain ⟨record, next⟩ := exists_nextEffects_of_execute fetched executed
    have ticked : s.tick = (.ok effects.stores, s.advance effects record) := by
      rw [tick, if_pos canStep, next]
    exact .done (Machine.perform_of_execute executed) ticked

end

/-! ## Lines -/

/-- A line of a trace is shown in front of a step. If the step fails, the line is the last and the
trace ends with that error. -/
theorem exists_step_of_line {t : TraceStep} (canStep : e.state.canStep = true)
    (line : (e.trace budget).1[k]? = some t) :
    ∃ s, e.steps? k = some s ∧ s.state.canStep = true ∧
      ((∃ stores left, s.tick = (.ok stores, left) ∧ t = s.shown stores) ∨
        ∃ err left, s.tick = (.error err, left) ∧ t = s.shown [] ∧
          (e.trace budget).1.length = k + 1 ∧ (e.trace budget).2.1 = .error err) := by
  induction budget generalizing e k with
  | zero => cases line
  | succ budget ih =>
    rcases ticked : e.tick with ⟨err | stores, left⟩
    · rw [trace_of_tick_error ticked] at line ⊢
      rw [List.getElem?_singleton, Option.ite_none_right_eq_some] at line
      obtain ⟨rfl, ⟨⟩⟩ := line
      exact ⟨e, rfl, canStep, .inr ⟨err, left, ticked, rfl, rfl, rfl⟩⟩
    · by_cases halted : left.state = .halted
      · rw [trace_of_halted ticked halted] at line
        rw [List.getElem?_singleton, Option.ite_none_right_eq_some] at line
        obtain ⟨rfl, ⟨⟩⟩ := line
        exact ⟨e, rfl, canStep, .inl ⟨stores, left, ticked, rfl⟩⟩
      rw [trace_of_goesOn ticked halted] at line ⊢
      cases k with
      | zero =>
        cases line
        exact ⟨e, rfl, canStep, .inl ⟨stores, left, ticked, rfl⟩⟩
      | succ k =>
        rw [List.getElem?_cons_succ] at line
        obtain ⟨s, made, canStep, shownBy⟩ := ih (canStep_of_tick ticked halted) line
        refine ⟨s, ?_, canStep, ?_⟩
        · rw [steps?_succ_of_tick_ok ticked]
          exact made
        · rcases shownBy with goesOn | ⟨err, last, failed, shown, length_eq, outcome⟩
          · exact .inl goesOn
          · refine .inr ⟨err, last, failed, shown, ?_, ?_⟩
            · rw [List.length_cons, length_eq]
            · rw [outcome]
              rfl

/-- **A trace shows the instructions that execute, except in its last line.** Each line of a trace
from a ready emulator is shown by the emulator that as many steps lead to as lines are in front of
it. If that fetches an instruction, the line shows this instruction, and the step carries it out. If
the fetch fails, the line is the last one and the trace ends with that error. The line also shows an
instruction, which nothing executes, if the program counter is outside the program or between two
words and memory there happens to read as one; it never does so for another reason. -/
theorem trace_line {t : TraceStep} (ready : e.state = .ready)
    (line : (e.trace budget).1[k]? = some t) :
    ∃ s, e.steps? k = some s ∧ t.pc = s.machine.pc ∧
      (∀ i, s.fetch = .ok i → ¬ t.glimpse.IsMarked ∧ t.glimpse.text = i.text ∧ s.Executes i) ∧
      (∀ err, s.fetch = .error err →
        (e.trace budget).1.length = k + 1 ∧ (e.trace budget).2.1 = .error err) ∧
      ((∃ i, s.fetch = .ok i) ↔ ¬ t.glimpse.IsMarked ∧ s.InProgram ∧ s.IsAligned) := by
  obtain ⟨s, made, canStep, shownBy⟩ := exists_step_of_line (Lifecycle.canStep_iff.mpr (.inl ready))
    line
  obtain ⟨pc_eq, glimpse_eq⟩ : t.pc = s.machine.pc ∧ t.glimpse = s.glimpse := by
    rcases shownBy with ⟨stores, left, -, rfl⟩ | ⟨err, left, -, rfl, -⟩
    · exact ⟨rfl, rfl⟩
    · exact ⟨rfl, rfl⟩
  refine ⟨s, made, pc_eq, fun i fetched => ?_, fun err failed => ?_, ?_⟩
  · have shows := (fetch_eq_ok_iff.mp fetched).1
    rw [glimpse_eq, shows]
    exact ⟨i.not_isMarked, rfl, executes_of_fetch canStep fetched⟩
  · -- the step of an emulator that cannot fetch fails, so the line is none that goes on
    have ticked := tick_of_nextEffects_error canStep (nextEffects_of_fetch_error failed)
    rcases shownBy with ⟨stores, left, made, -⟩ | ⟨err', left, made, -, length_eq, outcome⟩
    · cases ticked.symm.trans made
    · cases ticked.symm.trans made
      exact ⟨length_eq, outcome⟩
  · rw [glimpse_eq, Glimpse.not_isMarked_iff]
    simp only [fetch_eq_ok_iff, exists_and_right]

/-- A program of one instruction that does nothing, loaded in front of zeros. -/
def runsOffEnd : Emulator :=
  ((call {} .reset).2.call (.loadProgram { code := [0x01000000], lines := [1] })).2

/-- The line in front of the only instruction of the program. -/
theorem trace_line_runsOffEnd :
    runsOffEnd.state = .ready ∧
      (runsOffEnd.trace 2).1[0]? = some ⟨codeBase, .instruction ⟨.nop, ()⟩, []⟩ ∧
      runsOffEnd.Executes ⟨.nop, ()⟩ := by
  have ready : runsOffEnd.state = .ready := by decide +kernel
  have line : (runsOffEnd.trace 2).1[0]? = some ⟨codeBase, .instruction ⟨.nop, ()⟩, []⟩ := by
    decide +kernel
  have fetched : runsOffEnd.fetch = .ok ⟨.nop, ()⟩ := by decide +kernel
  obtain ⟨s, made, -, executes, -⟩ := trace_line ready line
  cases made
  exact ⟨ready, line, (executes _ fetched).2.2⟩

/-- Zeros read as the instruction that halts, and the trace shows it behind the end of a program
that does not halt. -/
theorem trace_shows_unfetched_runsOffEnd :
    assemble "NOP\n" = .ok { code := [0x01000000], lines := [1] } ∧ runsOffEnd.state = .ready ∧
      ∃ s t, runsOffEnd.steps? 1 = some s ∧ (runsOffEnd.trace 2).1[1]? = some t ∧
        t.text = "0x00010004  HALT\n" ∧ ¬ t.glimpse.IsMarked ∧
        s.fetch = .error (.fetch 0x10004 .outsideProgram) := by
  have assembled : assemble "NOP\n" = .ok { code := [0x01000000], lines := [1] } := by
    decide +kernel
  have ready : runsOffEnd.state = .ready := by decide +kernel
  have line : (runsOffEnd.trace 2).1[1]? = some ⟨0x10004, .instruction ⟨.halt, ()⟩, []⟩ := by
    decide +kernel
  have failed : runsOffEnd.step.2.fetch = .error (.fetch 0x10004 .outsideProgram) := by
    decide +kernel
  exact ⟨assembled, ready, runsOffEnd.step.2, _, rfl, line, rfl, Instruction.not_isMarked _, failed⟩

end Emulator

end RobotMachine
