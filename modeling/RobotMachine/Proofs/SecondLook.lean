import RobotMachine.Proofs.AssemblyInPlace
import RobotMachine.Proofs.ReportedErrors

/-!
# The second look

The second look at a source gathers the values of the operands of an instruction and packs them into
the fields of its opcode. It has an exit for an operand that is a string, for a value too few, too
many or of the wrong kind, for a symbol without a value and for a byte of the data without a place.
None of them is ever taken: an opcode is only chosen for operands that fill its fields, and symbols
and regions were checked before. What is left are values that do not fit.

* `Operand.gather`: the values of operands, or a refusal of a string.
* `Operand.takes_of_gather`: those of fitting operands fill the fields of the opcode.
* `Layout.secondLook`: the second look with every exit.
* `Layout.secondLook_eq`: it does what `Layout.emit` does.
* `assemble_second_look`: what it can fail on.
-/

namespace RobotMachine

namespace Operand

variable {table : SymbolTable}

/-! ## Gathering -/

/-- The operand is not a string. -/
def IsPlain : Operand → Prop
  | string _ => False
  | _ => True

/-- No shape asks for a string. -/
theorem isPlain_of_allFit {shapes : List OperandShape} {operands : List Operand}
    (fit : allFit shapes operands = true) : ∀ o ∈ operands, o.IsPlain := by
  induction shapes generalizing operands with
  | nil =>
    cases operands with
    | nil => nofun
    | cons => cases fit
  | cons s shapes ih =>
    obtain ⟨o, others, rfl, fits, fit⟩ := exists_cons_of_allFit fit
    refine List.forall_mem_cons.mpr ⟨?_, ih fit⟩
    cases o with
    | string bytes => cases s <;> cases fits
    | _ => trivial

theorem isPlain_fst_of_allFit {shapes : List OperandShape} {operands : List (Operand × Nat)}
    (fit : allFit shapes (operands.map (·.1)) = true) : ∀ o ∈ operands, o.1.IsPlain := by
  intro o member
  exact isPlain_of_allFit fit o.1 (List.mem_map_of_mem member)

/-- The values of operands behind those gathered so far, and the column that a value out of range is
blamed on. A string is refused. -/
def gather (table : SymbolTable) (values : List OperandValue) (blamed : Option Nat) :
    List (Operand × Nat) → Except LineError (List OperandValue × Option Nat)
  | [] => .ok (values, blamed)
  | (register r, _) :: operands => gather table (values ++ [.register r]) blamed operands
  | (memoryOffset base e, column) :: operands => do
    let v ← e.evaluate table
    gather table (values ++ [.register base, .integer v]) (blamed.or (some column)) operands
  | (immediate e, column) :: operands | (memoryAbsolute e, column) :: operands
  | (bare e, column) :: operands => do
    let v ← e.evaluate table
    gather table (values ++ [.integer v]) (blamed.or (some column)) operands
  | (string _, column) :: _ => .error ⟨column, .unexpectedString⟩

/-- The column of the first operand that has an expression. -/
def valueColumn? (operands : List (Operand × Nat)) : Option Nat :=
  (operands.find? fun (o, _) => o.expression?.isSome).map (·.2)

/-- The column of an operand that has an expression. -/
def blamedColumn? (o : Operand) (column : Nat) : Option Nat :=
  if o.expression?.isSome then some column else none

theorem valueColumn?_cons (o : Operand) (column : Nat) (operands : List (Operand × Nat)) :
    valueColumn? ((o, column) :: operands) = (o.blamedColumn? column).or (valueColumn? operands) := by
  rw [valueColumn?, blamedColumn?, List.find?_cons]
  dsimp only
  cases o.expression?.isSome with
  | false => rfl
  | true => rfl

theorem gather_cons {o : Operand} (plain : o.IsPlain) (column : Nat)
    (operands : List (Operand × Nat)) (values : List OperandValue) (blamed : Option Nat) :
    gather table values blamed ((o, column) :: operands) =
      o.evaluate table >>= fun given =>
        gather table (values ++ given) (blamed.or (o.blamedColumn? column)) operands := by
  cases o with
  | register r =>
    rw [blamedColumn?, if_neg (by nofun), Option.or_none]
    rfl
  | string bytes => cases plain
  | immediate e | memoryAbsolute e | bare e | memoryOffset base e =>
    rw [gather, evaluate]
    cases e.evaluate table with
    | error err => rfl
    | ok v => rfl

/-- Without strings the operands are evaluated one by one. -/
theorem gather_eq {operands : List (Operand × Nat)} (plain : ∀ o ∈ operands, o.1.IsPlain)
    (values : List OperandValue) (blamed : Option Nat) :
    gather table values blamed operands =
      (operands.mapM fun o : Operand × Nat => o.1.evaluate table).map fun given =>
        (values ++ given.flatten, blamed.or (valueColumn? operands)) := by
  -- values are added behind those gathered so far, and only the first column is kept
  induction operands generalizing values blamed with
  | nil =>
    have nothing : valueColumn? [] = none := rfl
    rw [gather, nothing, Option.or_none, List.mapM_nil]
    exact congrArg (fun all => Except.ok (all, blamed)) (List.append_nil values).symm
  | cons first operands ih =>
    obtain ⟨o, column⟩ := first
    obtain ⟨head, tail⟩ := List.forall_mem_cons.mp plain
    rw [gather_cons head, List.mapM_cons, valueColumn?_cons]
    cases o.evaluate table with
    | error err => rfl
    | ok given =>
      rw [Except.ok_bind, Except.ok_bind, ih tail, Option.or_assoc]
      cases operands.mapM fun o : Operand × Nat => o.1.evaluate table with
      | error err => rfl
      | ok others =>
        simp only [Except.ok_map, Except.ok_bind, List.append_assoc]
        rfl

/-- What is gathered from fitting operands is packed, or refused for a value out of range. -/
theorem takes_of_gather {opcode : Opcode} {operands : List (Operand × Nat)}
    {values : List OperandValue} {blamed : Option Nat}
    (fit : allFit opcode.shapes (operands.map (·.1)) = true)
    (gathered : gather table [] none operands = .ok (values, blamed)) :
    List.Forall₂ Field.Takes opcode.fields values ∧
      ∀ e, Instruction.ofOperands opcode values = .error e → e.IsOutOfRange := by
  rw [gather_eq (isPlain_fst_of_allFit fit)] at gathered
  obtain ⟨given, evaluated, same⟩ := Except.map_eq_ok_iff.mp gathered
  cases same
  have takes : List.Forall₂ Field.Takes opcode.fields given.flatten :=
    takes_of_allFit opcode.serves fit
      (List.forall₂_map_left_iff.mpr (Except.mapM_eq_ok_iff.mp evaluated))
  refine ⟨takes, fun e refused => ?_⟩
  have packed := Operands.pack_failsIff takes
  rw [List.nil_append, Instruction.ofOperands, Except.map_eq_error_iff] at refused
  rw [refused] at packed
  exact packed.of_error.2

end Operand

/-! ## Statements -/

/-- `emitInstruction` over gathered values. -/
def emitGathered (table : SymbolTable) (column : Nat) (opcode : Opcode)
    (operands : List (Operand × Nat)) : Except LineError UInt32 := do
  let (values, blamed) ← Operand.gather table [] none operands
  match Instruction.ofOperands opcode values with
  | .ok i => return i.encode
  | .error e => throw ⟨blamed.getD column, .operand e⟩

theorem emitGathered_eq {table : SymbolTable} {opcode : Opcode} {operands : List (Operand × Nat)}
    (plain : ∀ o ∈ operands, o.1.IsPlain) (column : Nat) :
    emitGathered table column opcode operands = emitInstruction table column opcode operands := by
  rw [emitGathered, emitInstruction, Operand.gather_eq plain]
  cases operands.mapM fun o : Operand × Nat => o.1.evaluate table with
  | error err => rfl
  | ok given => rfl

namespace Statement

/-- `Statement.emitInPlace` with every exit for operands. -/
def secondLook (table : SymbolTable) (p : Program) (s : Statement) : Checked LineError Program :=
  match s.body with
  | .instruction opcode operands => do
    let word ← checked (emitGathered table s.column opcode operands)
    return { p with code := p.code ++ [word], lines := p.lines ++ [UInt32.ofNat s.line] }
  | _ => s.emitInPlace table p

/-- Looks at statements one after the other. -/
def secondLooks (table : SymbolTable) (p : Program) : List Statement → Checked AssemblyError Program
  | [] => .ok p
  | s :: statements =>
    match s.secondLook table p with
    | .ok p => secondLooks table p statements
    | .error stop => .error (stop.map (·.onLine s.line))

variable {table : SymbolTable} {p : Program}

theorem secondLook_eq {s : Statement} (shaped : s.body.IsShaped) :
    s.secondLook table p = s.emitInPlace table p := by
  obtain ⟨line, column, body⟩ := s
  cases body with
  | instruction opcode operands =>
    rw [secondLook, emitInPlace]
    dsimp only
    rw [emitGathered_eq (Operand.isPlain_fst_of_allFit shaped)]
  | _ => rfl

theorem secondLooks_eq {statements : List Statement} (shaped : ∀ s ∈ statements, s.body.IsShaped) :
    secondLooks table p statements = emitAllInPlace table p statements := by
  induction statements generalizing p with
  | nil => rfl
  | cons s statements ih =>
    obtain ⟨head, tail⟩ := List.forall_mem_cons.mp shaped
    rw [secondLooks, emitAllInPlace, secondLook_eq head]
    cases s.emitInPlace table p with
    | error stop => rfl
    | ok p => exact ih tail

/-- A symbol without a value is found in front of the second look. -/
theorem isDefined_of_undefinedIn {s : Statement} (none : Layout.undefinedIn table s = none) :
    s.IsDefined table := by
  intro e member symbol listed
  rw [Layout.undefinedIn, List.findSome?_eq_none_iff] at none
  have known := none symbol (List.mem_flatMap.mpr ⟨e, member, listed⟩)
  dsimp only at known
  split at known
  · next isSome => exact isSome
  · cases known

end Statement

/-! ## Layouts -/

namespace Layout

variable {l : Layout}

/-- The second look at the statements of a layout, into a program without code. -/
def secondLook (l : Layout) : Checked AssemblyError Program :=
  Statement.secondLooks l.symbols { data := l.blankData, symbols := l.sortedSymbols }
    l.statements.reverse

theorem secondLook_eq (holds : l.HoldsData) (shaped : ∀ s ∈ l.statements.reverse, s.body.IsShaped)
    (sound : l.defect? = none) : l.secondLook = checked l.emit := by
  rw [← holds.emitInPlace_eq, emitInPlace, sound, secondLook, Statement.secondLooks_eq shaped]

theorem isDefined_of_defect? (sound : l.defect? = none) :
    ∀ s ∈ l.statements.reverse, s.IsDefined l.symbols := by
  intro s member
  rw [defect?, Option.or_eq_none_iff, List.findSome?_eq_none_iff] at sound
  exact Statement.isDefined_of_undefinedIn (sound.1 s member)

/-- A layout without a defect is encoded, or it has a value that does not fit. -/
theorem emit_fails_on_values (shaped : ∀ s ∈ l.statements.reverse, s.body.IsShaped)
    (sound : l.defect? = none) : Except.Ends (fun _ => True) (·.cause.IsMisfit) l.emit := by
  have each : ∀ s ∈ l.statements.reverse, Except.Ends (fun _ => True) (·.cause.IsMisfit)
      ((s.emit l.symbols).mapError (·.onLine s.line)) := by
    intro s member
    have ends := s.emit_failsIff (shaped s member) (isDefined_of_defect? sound s member)
    exact (ends.weaken fun _ _ => trivial).mapError fun e bad => bad.2
  rw [emit, sound]
  exact (Except.Ends.mapM each).bind fun emissions _ => .ok trivial

end Layout

/-- **The second look fails on values only.** If the first look at a source succeeds and no symbol
is undefined and no region outgrown, the second look ends with a program or with a value that does
not fit: an operand out of the range of its field, a listed value that is too large for its word or
byte, or an expression that overflows. These are encoding errors; no other exit is taken. Whenever
values are packed into an instruction, there is one for each field of its opcode, in order and of
the kind that the field holds, so that packing only fails on a range. This is because every opcode
that is chosen for some operands, none of which is a string, has fields that they fill, whatever
their expressions amount to. -/
theorem assemble_second_look {source : String} {l : Layout}
    (laidOut : Layout.ofLines (linesOf source.toList) = .ok l) (sound : l.defect? = none) :
    l.secondLook = checked (assemble source) ∧
      ((∃ p, l.secondLook = .ok p) ∨
        ∃ e, l.secondLook = .error (.refused e) ∧ e.cause.IsMisfit ∧ e.cause.kind = .unencodable) ∧
      (∀ s ∈ l.statements, ∀ opcode operands, s.body = .instruction opcode operands →
        ∀ values blamed, Operand.gather l.symbols [] none operands = .ok (values, blamed) →
          List.Forall₂ Field.Takes opcode.fields values ∧
            ∀ e, Instruction.ofOperands opcode values = .error e → e.IsOutOfRange) ∧
      ∀ head operands opcode, Opcode.select head operands = .ok opcode →
        (∀ o ∈ operands, o.IsPlain) ∧
          ∀ number, List.Forall₂ Field.Takes opcode.fields
            (operands.flatMap (Operand.gives number)) := by
  have shaped : ∀ s ∈ l.statements.reverse, s.body.IsShaped := by
    obtain ⟨lines, -, laysOut⟩ := Layout.ofLines_eq_ok_iff.mp laidOut
    exact (Layout.laysOut_of_ofScanned laysOut).isShaped
  have same := Layout.secondLook_eq (.ofLines laidOut) shaped sound
  have ends := Layout.emit_fails_on_values shaped sound
  rw [← assemble_eq_emit laidOut] at same ends
  refine ⟨same, ?_, fun s member opcode operands body values blamed => ?_,
    fun head operands opcode selected => ?_⟩
  · rw [same]
    cases assembled : assemble source with
    | ok p => exact .inl ⟨p, rfl⟩
    | error e =>
      rw [assembled] at ends
      have misfit : e.cause.IsMisfit := ends.of_error
      exact .inr ⟨e, rfl, misfit, misfit.kind_eq⟩
  · have fit := shaped s (List.mem_reverse.mpr member)
    rw [body] at fit
    exact Operand.takes_of_gather fit
  · have fit := (Opcode.select_eq_ok_iff.mp selected).1.2
    exact ⟨Operand.isPlain_of_allFit fit, Operand.takes_flatMap_gives opcode.serves fit⟩

/-- A source with an immediate that is too large, and a memory operand that fills two fields. -/
def oversizedImmediate : String :=
  "start: STR R0, [SP, #4]\nMOV R0, #0x100000\nB start\n"

theorem assemble_second_look_oversizedImmediate :
    ∃ l e, Layout.ofLines (linesOf oversizedImmediate.toList) = .ok l ∧ l.defect? = none ∧
      l.secondLook = .error (.refused e) ∧ e.cause.IsMisfit := by
  have found : (Layout.ofLines (linesOf oversizedImmediate.toList)).toOption.map Layout.defect? =
      some none := by
    decide +kernel
  have fails : (assemble oversizedImmediate).toOption = none := by decide +kernel
  obtain ⟨l, laidOut, sound⟩ := Option.map_eq_some_iff.mp found
  rw [Except.toOption_eq_some_iff] at laidOut
  obtain ⟨same, outcome, -⟩ := assemble_second_look laidOut sound
  rcases outcome with ⟨p, ends⟩ | ⟨e, ends, misfit, -⟩
  · rw [same, checked_eq_ok_iff] at ends
    rw [ends] at fails
    cases fails
  · exact ⟨l, e, laidOut, sound, ends, misfit⟩

end RobotMachine
