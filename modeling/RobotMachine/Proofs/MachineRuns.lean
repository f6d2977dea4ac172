import RobotMachine.Proofs.GuardedCode

/-!
# Instructions on a bare machine

What an instruction does can be seen on a machine alone, without a program around it: it fails on
memory, or it stores some bytes and leaves another machine. A step of an emulator does the same with
the instruction that it fetches.

* `Machine.perform`, `Machine.performAll`: one instruction, and some one after the other.
* `Emulator.exists_perform_of_tick`: a step performs the fetched instruction.
-/

namespace RobotMachine

namespace Machine

variable {m m' : Machine} {i : Instruction} {later : List Instruction} {stores : List Store}

/-- Carries out an instruction: what it stores, and the machine behind it. -/
def perform (m : Machine) (i : Instruction) : Except MemoryFault (List Store × Machine) :=
  (m.execute i).map fun effects => (effects.stores, m.apply effects)

/-- Carries out some instructions one after the other, up to the first that fails: what they store,
in order, and the machine behind the last. -/
def performAll : Machine → List Instruction → Except MemoryFault (List Store × Machine)
  | m, [] => .ok ([], m)
  | m, i :: later => do
    let (stores, m) ← m.perform i
    let (others, m) ← m.performAll later
    return (stores ++ others, m)

/-- The machine with another program counter. -/
def jumpTo (m : Machine) (pc : UInt32) : Machine :=
  { m with registers := { m.registers with pc } }

/-- The machine with other flags. -/
def withFlags (m : Machine) (flags : Flags) : Machine :=
  { m with registers := { m.registers with flags } }

@[simp]
theorem flags_withFlags (m : Machine) (flags : Flags) : (m.withFlags flags).flags = flags := rfl

@[simp]
theorem pc_withFlags (m : Machine) (flags : Flags) : (m.withFlags flags).pc = m.pc := rfl

/-- Of the writes to a register the last one counts. -/
theorem reg_apply_of_concat (m : Machine) {effects : Effects} {earlier : List (Register × UInt32)}
    {r : Register} {value : UInt32} (writes : effects.registers = earlier ++ [(r, value)]) :
    (m.apply effects).reg r = value := by
  have written : (m.apply effects).reg r =
      (m.registers.setAll (earlier ++ [(r, value)])).get r := by
    rw [← writes]
    rfl
  rw [written, RegisterFile.setAll, List.foldl_append]
  exact RegisterFile.get_set_self _ r value

theorem perform_of_execute {effects : Effects} (executed : m.execute i = .ok effects) :
    m.perform i = .ok (effects.stores, m.apply effects) := by
  rw [perform, executed]
  rfl

theorem perform_eq_ok_iff :
    m.perform i = .ok (stores, m') ↔
      ∃ effects, m.execute i = .ok effects ∧ effects.stores = stores ∧ m.apply effects = m' := by
  rw [perform, Except.map_eq_ok_iff]
  simp only [Prod.mk.injEq]

theorem performAll_cons_eq_ok_iff :
    m.performAll (i :: later) = .ok (stores, m') ↔
      ∃ first between others, m.perform i = .ok (first, between) ∧
        between.performAll later = .ok (others, m') ∧ stores = first ++ others := by
  simp only [performAll, Except.bind_eq_ok_iff, Except.pure_eq_ok_iff, Prod.exists, Prod.mk.injEq]
  constructor
  · intro outcome
    obtain ⟨first, between, performed, others, last, rest, rfl, rfl⟩ := outcome
    exact ⟨first, between, others, performed, rest, rfl⟩
  · intro outcome
    obtain ⟨first, between, others, performed, rest, rfl⟩ := outcome
    exact ⟨first, between, performed, others, m', rest, rfl, rfl⟩

end Machine

/-- A step of an emulator performs the instruction that it fetches. -/
theorem Emulator.exists_perform_of_tick {e e' : Emulator} {stores : List Store}
    (ticked : e.tick = (.ok stores, e')) :
    ∃ i, e.fetch = .ok i ∧ e.machine.perform i = .ok (stores, e'.machine) := by
  rcases e.tick_cases with ⟨-, refused⟩ | ⟨err, -, -, failed⟩ | ⟨effects, record, -, next, made⟩
  · cases refused.symm.trans ticked
  · cases failed.symm.trans ticked
  · cases made.symm.trans ticked
    obtain ⟨i, fetched, executed, -⟩ := nextEffects_eq_ok next
    exact ⟨i, fetched, Machine.perform_of_execute executed⟩

end RobotMachine
