import RobotMachine.Proofs.Reachable

/-!
# The lifecycle of an emulator

In a reachable emulator the state tells whether there are steps to undo, and each record tells in
which state undoing it resumes: ready behind the oldest step, and running behind every other one.
What is put into an emulator from outside is only taken while there is nothing to undo.

* `History.Chained.prior_of_concat`: the states to resume in, the oldest step apart.
* `Emulator.call_of_isLoading`: an emulator that is not ready refuses what is put into it.
* `Emulator.Reachable.lifecycle_invariant`: all of it, in every reachable emulator.
-/

namespace RobotMachine

/-- Whether a call puts code or bytes into an emulator. -/
def Call.isLoading : Call → Bool
  | loadCode _ | loadProgram _ | writeMemory .. => true
  | reset | move _ => false

/-- Undoing the oldest step resumes in the ready state, and undoing any other in the running one. -/
theorem History.Chained.prior_of_concat {newer : History} {oldest : StepRecord}
    (chained : History.Chained (newer ++ [oldest])) :
    oldest.prior = .ready ∧ ∀ record ∈ newer, record.prior = .running := by
  induction newer with
  | nil => exact ⟨chained.1, nofun⟩
  | cons newest newer ih =>
    rw [List.cons_append] at chained
    obtain ⟨prior, rest⟩ := chained
    obtain ⟨first, others⟩ := ih rest
    refine ⟨first, fun record member => ?_⟩
    rcases List.mem_cons.mp member with rfl | member
    · rw [prior, if_neg (List.append_ne_nil_of_right_ne_nil _ (List.cons_ne_nil _ _))]
    · exact others record member

namespace Emulator

variable {e : Emulator}

theorem call_of_isLoading (notReady : e.state ≠ .ready) {c : Call} (loading : c.isLoading = true) :
    e.call c = (.error (.notReady e.state), e) := by
  cases c with
  | loadCode code =>
    rw [call, loadCode, if_pos notReady]
    rfl
  | loadProgram p =>
    rw [call, loadProgram, if_pos notReady]
    rfl
  | writeMemory address bytes =>
    rw [call, writeMemory, if_pos notReady]
    rfl
  | reset => cases loading
  | move m => cases loading

theorem Consistent.history_eq_nil (h : e.Consistent)
    (idle : e.state = .uninitialized ∨ e.state = .ready) : e.history = [] := by
  have admits := h.admits
  rcases idle with state | state
  · rw [state] at admits
    exact admits
  · rw [state] at admits
    exact admits

theorem Consistent.history_ne_nil (h : e.Consistent)
    (started : e.state = .running ∨ e.state = .halted) : e.history ≠ [] := by
  have admits := h.admits
  rcases started with state | state
  · rw [state] at admits
    exact admits
  · rw [state] at admits
    exact admits

/-- **The lifecycle invariant.** Before the first step there is nothing to undo, and from it on
there is, unless a fault has intervened. Undoing goes back through running emulators to the ready
one, the regions and the loaded code keep their bounds, and while there are steps to undo nothing
can be loaded or written. -/
theorem Reachable.lifecycle_invariant (reachable : e.Reachable) :
    (e.state = .uninitialized ∨ e.state = .ready → e.history = []) ∧
      (e.state = .running ∨ e.state = .halted → e.history ≠ []) ∧
      (∀ newer oldest, e.history = newer ++ [oldest] →
        oldest.prior = .ready ∧ ∀ record ∈ newer, record.prior = .running) ∧
      (∀ r, (e.machine.memory.bank r).toList.length = regionSize) ∧
      e.codeLength ≤ regionWords ∧
      (e.history ≠ [] → ∀ c : Call, c.isLoading = true →
        e.call c = (.error (.notReady e.state), e)) := by
  have consistent := reachable.consistent
  refine ⟨consistent.history_eq_nil, consistent.history_ne_nil, fun newer oldest same => ?_,
    fun r => Vector.length_toList, consistent.codeLength_le, fun steps c loading => ?_⟩
  · have chained := consistent.chained
    rw [same] at chained
    exact chained.prior_of_concat
  · refine call_of_isLoading (fun ready => ?_) loading
    exact steps (consistent.history_eq_nil (.inr ready))

/-- An emulator that has gone on twice and then halted. -/
def haltedAtEnd : Emulator :=
  (((call {} .reset).2.call (.loadCode [0x01000000, 0x01000000, 0x00000000])).2.call
    (.move (.run 9))).2

theorem lifecycle_invariant_haltedAtEnd :
    haltedAtEnd.Reachable ∧ haltedAtEnd.state = .halted ∧
      haltedAtEnd.history.map StepRecord.prior = [.running, .running, .ready] ∧
      (∀ newer oldest, haltedAtEnd.history = newer ++ [oldest] →
        oldest.prior = .ready ∧ ∀ record ∈ newer, record.prior = .running) ∧
      haltedAtEnd.call (.writeMemory dataBase [1]) = (.error (.notReady .halted), haltedAtEnd) := by
  have reachable : haltedAtEnd.Reachable := .call _ (.call _ (.call .reset .new))
  have halted : haltedAtEnd.state = .halted := by decide +kernel
  obtain ⟨-, started, prior, -, -, refuses⟩ := Reachable.lifecycle_invariant reachable
  have refused := refuses (started (.inr halted)) (.writeMemory dataBase [1]) rfl
  rw [halted] at refused
  exact ⟨reachable, halted, by decide +kernel, prior, refused⟩

end Emulator

end RobotMachine
