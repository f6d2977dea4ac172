import RobotMachine.Proofs.InterruptedRun
import RobotMachine.Proofs.Transfers

/-!
# What a run stores

Each instruction that a run executes adds the stores of its transfer to the summary, in the order of
execution, and they are all that happens to memory. The commands are read off the stores, but they
can be read off the instructions just as well: one that stores a word from 1 to 4 at the mailbox
address gives a command, and nothing else does, be it a byte or a word that overlaps the mailbox.

* `Emulator.executed`: the instructions that some steps execute.
* `Emulator.Accounts`: how the stores of some steps account for what the steps did.
* `Emulator.Accounts.of_tick`, `Emulator.accounts_of_runSteps`: one step, and a run of them.
* `Emulator.stores_account_for_run`: the stores and the commands of a run.
-/

namespace RobotMachine

/-! ## Commands -/

namespace Command

theorem word_bounds (c : Command) : 1 ≤ c.word.toNat ∧ c.word.toNat ≤ 4 := by
  cases c <;> decide

theorem exists_word_eq {w : UInt32} (lower : 1 ≤ w.toNat) (upper : w.toNat ≤ 4) :
    ∃ c : Command, c.word = w := by
  have number : w.toNat = 1 ∨ w.toNat = 2 ∨ w.toNat = 3 ∨ w.toNat = 4 := by omega
  rcases number with one | two | three | four
  · exact ⟨up, UInt32.toNat_inj.mp one.symm⟩
  · exact ⟨down, UInt32.toNat_inj.mp two.symm⟩
  · exact ⟨left, UInt32.toNat_inj.mp three.symm⟩
  · exact ⟨right, UInt32.toNat_inj.mp four.symm⟩

/-- The words of the commands are those from 1 to 4. -/
theorem map_word_ofWord? (w : UInt32) :
    (ofWord? w).map word = if 1 ≤ w.toNat ∧ w.toNat ≤ 4 then some w else none := by
  split
  · next within =>
    obtain ⟨c, rfl⟩ := exists_word_eq within.1 within.2
    rw [ofWord?_word, Option.map_some]
  · next beyond =>
    have unknown : ofWord? w = none := by
      refine List.find?_eq_none.mpr fun c _ same => beyond ?_
      rw [← eq_of_beq same]
      exact c.word_bounds
    rw [unknown, Option.map_none]

end Command

namespace Transfer

/-- The word of the command that a transfer gives: a word from 1 to 4 that it stores at the mailbox
address. -/
def commandWord? : Transfer → Option UInt32
  | storeWord address word =>
    if address = mailboxAddress ∧ 1 ≤ word.toNat ∧ word.toNat ≤ 4 then some word else none
  | load .. | storeByte .. => none

theorem map_word_command? (address word : UInt32) :
    (Store.command? ⟨address, wordBytes word⟩).map Command.word =
      (storeWord address word).commandWord? := by
  have whole : (wordBytes word).length = wordSize := LittleEndian.length_bytes _ _
  simp only [Store.command?, commandWord?, whole, and_true, number_wordBytes]
  by_cases mailbox : address = mailboxAddress
  · simp only [mailbox, if_true, true_and, Command.map_word_ofWord?]
  · simp only [mailbox, if_false, false_and, Option.map_none]

theorem commandsOf_singleton (s : Store) : commandsOf [s] = s.command?.toList := by
  rw [commandsOf, List.filterMap_eq_flatMap_toList, List.flatMap_singleton]

/-- A single byte gives no command, wherever it is stored. -/
theorem map_word_commandsOf (t : Transfer) :
    (commandsOf t.stores).map Command.word = t.commandWord?.toList := by
  cases t with
  | load address length => rfl
  | storeWord address word =>
    rw [stores, commandsOf_singleton, ← Option.toList_map, map_word_command?]
  | storeByte address byte =>
    have none : Store.command? ⟨address, [byte]⟩ = none := if_neg fun whole => nomatch whole.2
    rw [stores, commandsOf_singleton, none]
    rfl

end Transfer

/-! ## Executed instructions -/

/-- An instruction that is executed, with the machine that it finds. -/
structure Execution where
  machine : Machine
  instruction : Instruction

namespace Execution

def transfer? (x : Execution) : Option Transfer :=
  x.machine.transfer? x.instruction

/-- What the instruction writes. -/
def stores (x : Execution) : List Store :=
  x.transfer?.elim [] Transfer.stores

/-- The word of the command that the instruction gives, if it gives one. -/
def commandWord? (x : Execution) : Option UInt32 :=
  x.transfer?.bind Transfer.commandWord?

theorem map_word_commandsOf (x : Execution) :
    (commandsOf x.stores).map Command.word = x.commandWord?.toList := by
  unfold stores commandWord?
  cases x.transfer? with
  | none => rfl
  | some t => exact t.map_word_commandsOf

/-- The commands of some instructions, read off the instructions or off their stores. -/
theorem map_word_commandsOf_flatMap (xs : List Execution) :
    (commandsOf (xs.flatMap stores)).map Command.word = xs.filterMap commandWord? := by
  have each (x : Execution) : ((x.stores.filterMap Store.command?).map Command.word) =
      x.commandWord?.toList := x.map_word_commandsOf
  rw [commandsOf, List.filterMap_flatMap, List.map_flatMap, List.filterMap_eq_flatMap_toList]
  simp only [each]

end Execution

namespace Emulator

variable {e e' e'' : Emulator} {stores : List Store}

/-- The instructions that some steps execute. -/
def executed : Nat → Emulator → List Execution
  | 0, _ => []
  | count + 1, e =>
    match e.fetch with
    | .ok i => ⟨e.machine, i⟩ :: executed count e.step.2
    | .error _ => []

/-- Some steps that all succeed lead from one emulator to another. Each of them executes an
instruction, and the stores are those of the instructions in their order. They may all be made, and
they are the changes of memory. -/
structure Accounts (e : Emulator) (count : Nat) (stores : List Store) (e' : Emulator) : Prop where
  made : e.steps? count = some e'
  length_eq : (e.executed count).length = count
  stores_eq : stores = (e.executed count).flatMap Execution.stores
  writable : ∀ s ∈ stores, s.IsWritable
  memory_eq : e'.machine.memory = e.machine.memory.patchAll stores

/-- A step executes one instruction, and its stores change memory. -/
theorem exists_transfer_of_tick (ticked : e.tick = (.ok stores, e')) :
    ∃ i, e.fetch = .ok i ∧ stores = Execution.stores ⟨e.machine, i⟩ ∧
      (∀ s ∈ stores, s.IsWritable) ∧ e'.machine.memory = e.machine.memory.patchAll stores := by
  rcases e.tick_cases with ⟨-, refused⟩ | ⟨err, -, -, failed⟩ | ⟨effects, record, -, next, made⟩
  · cases refused.symm.trans ticked
  · cases failed.symm.trans ticked
  · cases made.symm.trans ticked
    obtain ⟨i, fetched, executed, -⟩ := nextEffects_eq_ok next
    have answers := e.machine.execute_answers i
    rw [executed] at answers
    exact ⟨i, fetched, answers.stores_eq, (isWritable_of_nextEffects next).1, rfl⟩

namespace Accounts

theorem refl (e : Emulator) : e.Accounts 0 [] e :=
  ⟨rfl, rfl, rfl, nofun, rfl⟩

/-- A step in front of others. -/
theorem of_tick {count : Nat} {later : List Store} (ticked : e.tick = (.ok stores, e'))
    (rest : e'.Accounts count later e'') : e.Accounts (count + 1) (stores ++ later) e'' := by
  obtain ⟨i, fetched, transferred, writable, memory⟩ := exists_transfer_of_tick ticked
  have left : e.step.2 = e' := by rw [step_eq, ticked]
  have executed : e.executed (count + 1) = ⟨e.machine, i⟩ :: e'.executed count := by
    simp only [Emulator.executed, fetched, left]
  constructor
  case made =>
    rw [steps?_succ_of_tick_ok ticked]
    exact rest.made
  case length_eq => rw [executed, List.length_cons, rest.length_eq]
  case stores_eq => rw [executed, List.flatMap_cons, ← transferred, ← rest.stores_eq]
  case writable => exact List.forall_mem_append.mpr ⟨writable, rest.writable⟩
  case memory_eq => rw [rest.memory_eq, memory, Memory.patchAll, ← List.foldl_append]

end Accounts

/-- The stores that a run sums up account for its steps. -/
theorem accounts_of_runSteps {budget : Nat} {summary : RunSummary}
    (ran : e.runSteps budget = (.ok summary, e')) :
    e.Accounts summary.steps summary.stores e' := by
  induction budget generalizing e summary with
  | zero =>
    cases ran
    exact .refl _
  | succ budget ih =>
    unfold runSteps at ran
    split at ran
    · cases ran
      exact .refl _
    · rcases ticked : e.tick with ⟨err | stores, next⟩
      · rw [ticked] at ran
        cases ran
      · rw [ticked] at ran
        obtain ⟨answer, left⟩ := Prod.mk.inj ran
        obtain ⟨later, rest, rfl⟩ := Except.map_eq_ok_iff.mp answer
        exact (ih (Prod.ext rest left)).of_tick ticked

/-- **The stores of a run account for memory and commands.** If a run succeeds, then its steps all
do, and each executes one instruction. Writing the stores of the summary one after the other leads
from the memory before the run to the memory behind it, and they are the stores of the instructions
in the order of execution. The commands are those of the instructions that store a word from 1 to 4
at the mailbox address, one for each of them. -/
theorem stores_account_for_run {n : Nat} {summary : RunSummary}
    (ran : e.run n = (.ok summary, e')) :
    Memory.restore summary.stores e.machine.memory = (.ok (), e'.machine.memory) ∧
      e.steps? summary.steps = some e' ∧
      (e.executed summary.steps).length = summary.steps ∧
      summary.stores = (e.executed summary.steps).flatMap Execution.stores ∧
      summary.commands.map Command.word =
        (e.executed summary.steps).filterMap Execution.commandWord? := by
  unfold run at ran
  split at ran
  · have accounts := accounts_of_runSteps ran
    have memory := Memory.restore_of_isWritable e.machine.memory accounts.writable
    rw [← accounts.memory_eq] at memory
    refine ⟨memory, accounts.made, accounts.length_eq, accounts.stores_eq, ?_⟩
    rw [RunSummary.commands, accounts.stores_eq]
    exact Execution.map_word_commandsOf_flatMap _
  · cases ran

/-- A ready emulator that moves the robot up twice and stores a byte in the mailbox, where the low
byte of the word already is what it stores. -/
def upTwice : Emulator :=
  ((call {} .reset).2.call (.loadCode [0x60000000, 0x11100001, 0x60000000, 0x47130000, 0])).2

theorem stores_account_for_run_upTwice :
    ∃ summary, (upTwice.run 9).1 = .ok summary ∧ summary.commands = [.up, .up] ∧
      Memory.restore summary.stores upTwice.machine.memory =
        (.ok (), (upTwice.run 9).2.machine.memory) ∧
      (upTwice.executed summary.steps).filterMap Execution.commandWord? = [1, 1] := by
  let summary : RunSummary :=
    { steps := 5, halted := true, stores :=
        [⟨0x30000, [1, 0, 0, 0]⟩, ⟨0x30000, [1, 0, 0, 0]⟩, ⟨0x30000, [1]⟩] }
  have succeeds : (upTwice.run 9).1 = .ok summary := by decide +kernel
  have commands : summary.commands = [.up, .up] := by decide
  have ran : upTwice.run 9 = (.ok summary, (upTwice.run 9).2) := by
    rw [← succeeds]
  obtain ⟨memory, -, -, -, words⟩ := stores_account_for_run ran
  have ones : [Command.up, .up].map Command.word = [1, 1] := rfl
  rw [commands, ones] at words
  exact ⟨summary, succeeds, commands, memory, words.symm⟩

end Emulator

end RobotMachine
