import RobotMachine.Proofs.Undo

/-!
# Undoing many changes

Before a change to the machine a record is captured and stored, and the change then keeps to what
the record names. Any number of such rounds can be undone again, the newest first, and each call of
undo brings back the machine as it was before its round. Neither the places that a record names
twice nor the ranges that overlap matter, and what one round changes may be changed by another.

* `History.recordStep`: storing a record.
* `Rounds`: the machines and the histories that rounds lead to.
* `History.undoTimes`: what some calls of undo answer and leave.
* `History.nested_undo`: as many calls as there were rounds go back to the start, and one more fails.
-/

namespace RobotMachine

/-- Stores a record in the history, and gives the number of the step that it belongs to. -/
def History.recordStep (history : History) (record : StepRecord) : Nat × History :=
  (history.length, record :: history)

theorem Emulator.history_advance (e : Emulator) (effects : Effects) (record : StepRecord) :
    (e.advance effects record).history = (e.history.recordStep record).2 := rfl

/-- What a round starts from: the state that its record is to resume, and the machine. -/
structure Round where
  prior : Lifecycle
  before : Machine

/-- Rounds lead from a machine with nothing to undo to another one and its history. The rounds are
listed from the newest to the oldest. In each of them a record of some registers and ranges is
captured and stored, and then the machine is changed in what the record holds. -/
inductive Rounds (m₀ : Machine) : List Round → Machine → History → Prop
  | none : Rounds m₀ [] m₀ []
  | round {rounds : List Round} {m m' : Machine} {history : History} {prior : Lifecycle}
    {registers : List Register} {ranges : List (UInt32 × Nat)} {record : StepRecord} :
    Rounds m₀ rounds m history → StepRecord.capture prior m registers ranges = .ok record →
      m.AgreeOutside registers ranges m' →
        Rounds m₀ (⟨prior, m⟩ :: rounds) m' (history.recordStep record).2

/-- Records are numbered in the order of the rounds, from zero on. -/
theorem Rounds.number_recordStep {m₀ m : Machine} {rounds : List Round} {history : History}
    (made : Rounds m₀ rounds m history) (record : StepRecord) :
    (history.recordStep record).1 = rounds.length := by
  induction made with
  | none => rfl
  | round _ _ _ ih => exact congrArg Nat.succ ih

namespace History

/-- The answers of some calls of undo one after the other, each with the machine that it leaves, and
what the last call leaves. -/
def undoTimes : Nat → Machine → History →
    List (Except MachineError Lifecycle × Machine) × Machine × History
  | 0, m, history => ([], m, history)
  | count + 1, m, history =>
    let (answer, m, history) := history.undo m
    let (answers, left) := undoTimes count m history
    ((answer, m) :: answers, left)

/-- A record that was captured before a change undoes it. -/
theorem undo_recordStep {prior : Lifecycle} {m m' : Machine} {registers : List Register}
    {ranges : List (UInt32 × Nat)} {record : StepRecord} (history : History)
    (captured : StepRecord.capture prior m registers ranges = .ok record)
    (agree : m.AgreeOutside registers ranges m') :
    undo m' (history.recordStep record).2 = (.ok prior, m, history) := by
  have restored := StepRecord.restore_of_capture captured agree
  rw [recordStep, undo, restored, StepRecord.prior_of_capture captured]

/-- Calls go on from what the calls before them left. -/
theorem undoTimes_add (count more : Nat) (m : Machine) (history : History) :
    history.undoTimes (count + more) m =
      ((history.undoTimes count m).1 ++
          ((history.undoTimes count m).2.2.undoTimes more (history.undoTimes count m).2.1).1,
        ((history.undoTimes count m).2.2.undoTimes more (history.undoTimes count m).2.1).2) := by
  induction count generalizing m history with
  | zero => rw [Nat.zero_add, undoTimes, List.nil_append]
  | succ count ih =>
    rw [Nat.succ_add, undoTimes, undoTimes]
    simp only [ih, List.cons_append]

/-- Undoing takes the rounds back one by one. -/
theorem undoTimes_of_rounds {m₀ m : Machine} {rounds : List Round} {history : History}
    (made : Rounds m₀ rounds m history) :
    history.undoTimes rounds.length m =
      (rounds.map fun r => (.ok r.prior, r.before), m₀, []) := by
  induction made with
  | none => rfl
  | @round _ m _ history _ _ _ _ _ captured agree ih =>
    have newest := undo_recordStep history captured agree
    rw [List.length_cons, undoTimes, newest]
    simp only [ih]
    rfl

/-- **Nested undo restores exactly what was captured.** After any number of rounds as many calls of
undo succeed. They answer the states that the records were to resume, the newest first, and each
leaves the machine as it was before its round, down to the machine at the start. One more call finds
nothing to undo and changes nothing. -/
theorem nested_undo {m₀ m : Machine} {rounds : List Round} {history : History}
    (made : Rounds m₀ rounds m history) :
    history.undoTimes rounds.length m =
        (rounds.map fun r => (.ok r.prior, r.before), m₀, []) ∧
      history.undoTimes (rounds.length + 1) m =
        (rounds.map (fun r => (.ok r.prior, r.before)) ++ [(.error .nothingToUndo, m₀)],
          m₀, []) := by
  have all := undoTimes_of_rounds made
  refine ⟨all, ?_⟩
  rw [undoTimes_add, all]
  rfl

/-- A change that writes a register twice and ranges that overlap, touch or are empty. -/
def scribble (value : UInt32) : Effects where
  registers := [(.lr, value), (.sp, 0), (.lr, value + 1)]
  flags := some { z := true }
  pc := value
  stores := [⟨0x30000, [1, 2, 3, 4]⟩, ⟨0x30002, [5, 6, 7, 8]⟩, ⟨0x10ffe, [9, 9]⟩, ⟨0x31000, []⟩]

theorem nested_undo_scribbles :
    ∃ m history,
      Rounds {} [⟨.halted, Machine.apply {} (scribble 3)⟩, ⟨.ready, {}⟩] m history ∧
        history.undoTimes 2 m =
          ([(.ok .halted, Machine.apply {} (scribble 3)), (.ok .ready, {})], {}, []) ∧
        history.undoTimes 3 m =
          ([(.ok .halted, Machine.apply {} (scribble 3)), (.ok .ready, {}),
            (.error .nothingToUndo, {})], {}, []) := by
  -- every range of the change lies in one region, so a record can be captured before it
  have captures : ∀ (prior : Lifecycle) (m : Machine) (value : UInt32), ∃ record,
      StepRecord.capture prior m ((scribble value).registers.map (·.1))
        ((scribble value).stores.map Store.range) = .ok record :=
    fun _ _ _ => ⟨_, rfl⟩
  obtain ⟨first, capturedFirst⟩ := captures .ready {} 3
  obtain ⟨second, capturedSecond⟩ := captures .halted (Machine.apply {} (scribble 3)) 5
  have made := (Rounds.none.round capturedFirst (Machine.agreeOutside_apply _ _)).round
    capturedSecond (Machine.agreeOutside_apply _ _)
  obtain ⟨twice, thrice⟩ := nested_undo made
  exact ⟨_, _, made, twice, thrice⟩

end History

end RobotMachine
