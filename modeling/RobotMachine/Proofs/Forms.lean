import RobotMachine.Assembly.Operand

/-!
# The forms of a mnemonic

A mnemonic may name several opcodes, which differ in the shapes of their operands. No operands fit
the shapes of two of them, so it does not matter in which order the table is searched.

* `Opcode.IsFormOf`: the one form that written operands fit.
* `Opcode.select_eq_ok_iff`: it is the form that is selected.
-/

namespace RobotMachine

/-! ## Shapes that share operands -/

/-- Whether some operand may be written in both shapes. -/
def OperandShape.overlaps : OperandShape → OperandShape → Bool
  | immediate, target | target, immediate => true
  | s, t => s == t

theorem Operand.overlaps_of_fits {o : Operand} {s t : OperandShape} (fitsFirst : o.fits s = true)
    (fitsSecond : o.fits t = true) : s.overlaps t = true := by
  -- either the two shapes overlap, or every operand is none of one of them
  cases s <;> cases t <;> first
    | rfl
    | cases o <;> first
      | exact (Bool.false_ne_true fitsFirst).elim
      | exact (Bool.false_ne_true fitsSecond).elim

/-- Whether some operands may be written in both lists of shapes. -/
def OperandShape.allOverlap : List OperandShape → List OperandShape → Bool
  | [], [] => true
  | s :: shapes, t :: shapes' => s.overlaps t && allOverlap shapes shapes'
  | _, _ => false

theorem Operand.allOverlap_of_allFit {operands : List Operand} {shapes shapes' : List OperandShape}
    (fitFirst : Operand.allFit shapes operands = true)
    (fitSecond : Operand.allFit shapes' operands = true) :
    OperandShape.allOverlap shapes shapes' = true := by
  induction operands generalizing shapes shapes' with
  | nil =>
    cases shapes with
    | nil =>
      cases shapes' with
      | nil => rfl
      | cons => cases fitSecond
    | cons => cases fitFirst
  | cons o operands ih =>
    cases shapes with
    | nil => cases fitFirst
    | cons s shapes =>
      cases shapes' with
      | nil => cases fitSecond
      | cons t shapes' =>
        simp only [Operand.allFit, Bool.and_eq_true] at fitFirst fitSecond
        simp only [OperandShape.allOverlap, Bool.and_eq_true]
        exact ⟨overlaps_of_fits fitFirst.1 fitSecond.1, ih fitFirst.2 fitSecond.2⟩

namespace Opcode

/-- Two rows of the table with one mnemonic have shapes that no operands share. -/
theorem eq_of_allOverlap : ∀ op ∈ all, ∀ op' ∈ all, op.mnemonic = op'.mnemonic →
    OperandShape.allOverlap op.shapes op'.shapes = true → op = op' := by
  decide +kernel

theorem mem_withMnemonic_iff {op : Opcode} {name : List Char} :
    op ∈ withMnemonic name ↔ op.mnemonic.toList = name.map Char.toUpper := by
  simp only [withMnemonic, List.mem_filter, mem_all, true_and, beq_iff_eq]

/-- The opcode is the only form of a mnemonic whose shapes the operands fit. -/
def IsFormOf (op : Opcode) (name : List Char) (operands : List Operand) : Prop :=
  (op ∈ withMnemonic name ∧ Operand.allFit op.shapes operands = true) ∧
    ∀ op' ∈ withMnemonic name, Operand.allFit op'.shapes operands = true → op' = op

theorem isFormOf_of_allFit {op : Opcode} {name : List Char} {operands : List Operand}
    (named : op ∈ withMnemonic name) (fit : Operand.allFit op.shapes operands = true) :
    op.IsFormOf name operands := by
  refine ⟨⟨named, fit⟩, fun op' named' fit' => ?_⟩
  have sameName : op'.mnemonic = op.mnemonic := by
    rw [mem_withMnemonic_iff] at named named'
    exact String.toList_injective (named'.trans named.symm)
  exact eq_of_allOverlap op' (mem_all op') op (mem_all op) sameName
    (Operand.allOverlap_of_allFit fit' fit)

theorem select_eq_ok_iff {op : Opcode} {head : Fragment} {operands : List Operand} :
    select head operands = .ok op ↔ op.IsFormOf head.text operands := by
  simp only [select]
  refine ⟨fun selected => ?_, fun parts => ?_⟩
  · split at selected
    · next found =>
      cases selected
      have fit := List.find?_some found
      exact isFormOf_of_allFit (List.mem_of_find?_eq_some found) fit
    · split at selected
      · cases selected
      · cases selected
  · obtain ⟨⟨named, fit⟩, only⟩ := parts
    cases found : (withMnemonic head.text).find? fun op => Operand.allFit op.shapes operands with
    | none =>
      exact absurd fit (List.find?_eq_none.mp found op named)
    | some op' =>
      have fit' := List.find?_some found
      rw [only op' (List.mem_of_find?_eq_some found) fit']

end Opcode

end RobotMachine
