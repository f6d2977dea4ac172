import RobotMachine.Proofs.CodeLayout
import RobotMachine.Proofs.DataStretches
import RobotMachine.Proofs.ExactSums
import RobotMachine.Proofs.OperandLists

/-!
# Values that fit

Once every symbol of a statement is defined, only its values can keep it from being encoded: a sum
that leaves 64 bits, an operand outside the range of its field, or a listed value that is too large
for its word or byte. Operands that fit the shapes of an opcode give one value for each of its
fields, and of the field's kind.

* `Statement.Misfits`: a statement with a value that does not fit.
* `Operand.gives`: the values of an operand, whatever its expression amounts to.
* `Operand.takes_flatMap_gives`: the kinds of the values of fitting operands.
* `Statement.emit_failsIff`: a statement is encoded unless it misfits.
-/

namespace RobotMachine

/-- The cause is a value that does not fit. -/
def Cause.IsMisfit : Cause → Prop
  | .operand (.outOfRange ..) | .wordRange _ | .byteRange _ | .expressionOverflows => True
  | _ => False

theorem Cause.IsMisfit.kind_eq {cause : Cause} (misfit : cause.IsMisfit) :
    cause.kind = .unencodable := by
  cases cause with
  | operand | wordRange | byteRange | expressionOverflows => rfl
  | _ => cases misfit

/-! ## Sums -/

namespace Expression

/-- Every symbol of the expression is defined. -/
def IsDefined (e : Expression) (table : SymbolTable) : Prop :=
  ∀ s ∈ e.symbols, (table.value? s.1).isSome

/-- Some of the first terms of the expression have a sum that does not fit in 64 bits with a
sign. -/
def Overflows (e : Expression) (table : SymbolTable) : Prop :=
  ∃ numbers front, List.Forall₂ (fun t v => t.signed.value? table = some v) e.terms numbers ∧
    front <+: numbers ∧ ¬(-2 ^ 63 ≤ front.sum ∧ front.sum < 2 ^ 63)

variable {e : Expression} {table : SymbolTable}

theorem IsDefined.exists_numbers (defined : e.IsDefined table) :
    ∃ numbers, List.Forall₂ (fun t v => t.signed.value? table = some v) e.terms numbers := by
  have each : ∀ value ∈ e.terms.map Term.signed, (value.2.value? table).isSome := by
    intro value member
    obtain ⟨t, listed, rfl⟩ := List.mem_map.mp member
    cases value : t.value with
    | number n => simp [Term.signed, value, TermValue.value?]
    | symbol name =>
      have isSymbol : (name, t.column) ∈ e.symbols :=
        List.mem_filterMap.mpr ⟨t, listed, by rw [value]⟩
      simp only [Term.signed, value, TermValue.value?]
      exact defined _ isSymbol
  obtain ⟨numbers, known⟩ := RobotMachine.exists_numbers each
  exact ⟨numbers, List.forall₂_map_left_iff.mp known⟩

/-- An expression with defined symbols has a value unless it overflows. -/
theorem evaluate_failsIff (defined : e.IsDefined table) :
    Except.FailsIff (e.Overflows table) (·.cause.IsMisfit) (e.evaluate table) := by
  obtain ⟨numbers, known⟩ := defined.exists_numbers
  have exact (front : List Int) : fitsNumber (0 + front.sum) = true ↔
      -2 ^ 63 ≤ front.sum ∧ front.sum < 2 ^ 63 := by
    rw [Int.zero_add, fitsNumber_iff]
  rw [evaluate]
  by_cases overflows : ∃ front, front <+: numbers ∧ ¬(-2 ^ 63 ≤ front.sum ∧ front.sum < 2 ^ 63)
  · obtain ⟨front, isPrefix, outside⟩ := overflows
    rw [sum_of_overflow known (by decide) isPrefix (mt (exact front).mp outside)]
    exact .error ⟨⟨numbers, front, known, isPrefix, outside⟩, trivial⟩
  · have fits (front : List Int) (isPrefix : front <+: numbers) :=
      not_not.mp fun outside => overflows ⟨front, isPrefix, outside⟩
    rw [sum_of_fits known fun front isPrefix => (exact front).mpr (fits front isPrefix)]
    refine .ok ?_
    rintro ⟨numbers', front, known', isPrefix, outside⟩
    have same := eq_of_value? (List.forall₂_map_left_iff.mpr known)
      (List.forall₂_map_left_iff.mpr known')
    exact outside (fits front (same ▸ isPrefix))

end Expression

/-! ## Operands -/

/-- The error names a value and the field that it does not fit. -/
def OperandError.IsOutOfRange (e : OperandError) : Prop :=
  ∃ v field, e = .outOfRange v field ∧ ¬field.Admits (.integer v)

namespace Field

/-- The operand is of the kind that the field holds. -/
def Takes : Field → OperandValue → Prop
  | .rd, .register _ | .rn, .register _ | .rm, .register _ => True
  | .imm16, .integer _ | .imm20, .integer _ | .shift, .integer _ | .addr20, .integer _ => True
  | _, _ => False

theorem takes_register {f : Field} (kind : f ∈ [Field.rd, .rn, .rm]) (r : Register) :
    f.Takes (.register r) := by
  cases f with
  | rd | rn | rm => trivial
  | imm16 | imm20 | shift | addr20 => exact absurd kind (by decide)

theorem takes_immediate {f : Field} (kind : f ∈ [Field.imm16, .imm20, .shift]) (v : Int) :
    f.Takes (.integer v) := by
  cases f with
  | imm16 | imm20 | shift => trivial
  | rd | rn | rm | addr20 => exact absurd kind (by decide)

/-- A field packs every operand of its kind that is in its range. -/
theorem pack_failsIff {f : Field} {a : OperandValue} (takes : f.Takes a) :
    Except.FailsIff (¬f.Admits a) OperandError.IsOutOfRange (f.pack a) := by
  cases made : f.pack a with
  | ok v =>
    have unpacked : f.unpack v = a := pack_eq_ok_iff.mp made
    exact .ok (not_not_intro (exists_unpack_iff.mp ⟨v, unpacked⟩))
  | error e =>
    have refused : ¬f.Admits a := by
      intro admitted
      obtain ⟨v, unpacked⟩ := exists_unpack_iff.mpr admitted
      rw [pack_eq_ok_iff.mpr unpacked] at made
      cases made
    refine .error ⟨refused, ?_⟩
    cases a with
    | register r =>
      cases f with
      | rd | rn | rm => cases made
      | imm16 | imm20 | shift | addr20 => cases takes
    | integer n =>
      cases f with
      | rd | rn | rm => cases takes
      | imm16 | imm20 | shift | addr20 =>
        simp only [pack, OperandValue.toBounded] at made
        split at made
        · cases made
        · exact ⟨_, _, (Except.error.inj made).symm, refused⟩

end Field

/-- Some value does not fit the field that it is for. -/
def SomeOutOfRange (fields : List Field) (values : List OperandValue) : Prop :=
  ∃ (k : Nat) (field : Field) (v : Int), fields[k]? = some field ∧
    values[k]? = some (.integer v) ∧ ¬field.Admits (.integer v)

theorem someOutOfRange_cons {f : Field} {a : OperandValue} {fields : List Field}
    {values : List OperandValue} (takes : f.Takes a) :
    ¬f.Admits a ∨ SomeOutOfRange fields values ↔ SomeOutOfRange (f :: fields) (a :: values) := by
  constructor
  · rintro (refused | ⟨k, field, v, inFields, inValues, refused⟩)
    · cases a with
      | register r =>
        cases f with
        | rd | rn | rm => exact absurd trivial refused
        | imm16 | imm20 | shift | addr20 => cases takes
      | integer v => exact ⟨0, f, v, rfl, rfl, refused⟩
    · exact ⟨k + 1, field, v, inFields, inValues, refused⟩
  · rintro ⟨k, field, v, inFields, inValues, refused⟩
    cases k with
    | zero =>
      cases inFields
      cases inValues
      exact .inl refused
    | succ k => exact .inr ⟨k, field, v, inFields, inValues, refused⟩

/-- Values of the right kinds are packed unless one of them is out of range. -/
theorem Operands.pack_failsIff {fields : List Field} {values : List OperandValue}
    (takes : List.Forall₂ Field.Takes fields values) :
    Except.FailsIff (SomeOutOfRange fields values) OperandError.IsOutOfRange
      (Operands.pack fields values) := by
  induction takes with
  | nil => exact .ok fun ⟨_, _, _, found, _⟩ => nomatch found
  | @cons f a fields values head _ ih =>
    refine Except.FailsIff.congr (Except.FailsIff.bind (Field.pack_failsIff head) fun v _ =>
      Except.FailsIff.map ih fun vs => (v, vs)) ?_
    rw [← someOutOfRange_cons head]
    refine or_congr_right' fun admitted => ⟨fun ⟨_, _, bad⟩ => bad, fun bad => ?_⟩
    obtain ⟨v, unpacked⟩ := Field.exists_unpack_iff.mpr (not_not.mp admitted)
    exact ⟨v, Field.pack_eq_ok_iff.mpr unpacked, bad⟩

namespace Operand

/-- The expression of the operand, if it has one, overflows. -/
def Overflows (o : Operand) (table : SymbolTable) : Prop :=
  ∃ e, o.expression? = some e ∧ e.Overflows table

variable {table : SymbolTable}

theorem evaluate_failsIff {o : Operand}
    (defined : ∀ e, o.expression? = some e → e.IsDefined table) :
    Except.FailsIff (o.Overflows table) (·.cause.IsMisfit) (o.evaluate table) := by
  have overflows (e : Expression) (same : o.expression? = some e) :
      e.Overflows table ↔ o.Overflows table := by
    rw [Overflows, same]
    exact ⟨fun bad => ⟨e, rfl, bad⟩, fun ⟨_, same, bad⟩ => Option.some.inj same ▸ bad⟩
  cases o with
  | register r => exact .ok fun ⟨_, found, _⟩ => nomatch found
  | string bytes => exact .ok fun ⟨_, found, _⟩ => nomatch found
  | immediate e | memoryAbsolute e | bare e | memoryOffset base e =>
    have value := Expression.evaluate_failsIff (defined e rfl)
    exact (Except.FailsIff.map value _).congr (overflows e rfl)

/-- The values that an operand gives if expressions amount to some numbers: a memory operand with an
offset gives two, and a string none. -/
def gives (number : Expression → Int) : Operand → List OperandValue
  | register r => [.register r]
  | memoryOffset base e => [.register base, .integer (number e)]
  | immediate e | memoryAbsolute e | bare e => [.integer (number e)]
  | string _ => []

/-- Operands that fit several shapes are one that fits the first, and others. -/
theorem exists_cons_of_allFit {s : OperandShape} {shapes : List OperandShape}
    {operands : List Operand} (fit : allFit (s :: shapes) operands = true) :
    ∃ o others, operands = o :: others ∧ o.fits s = true ∧ allFit shapes others = true := by
  cases operands with
  | nil => cases fit
  | cons o others =>
    rw [allFit, Bool.and_eq_true] at fit
    exact ⟨o, others, rfl, fit.1, fit.2⟩

/-- **Operands that fit the shapes of an opcode fill its fields.** They give one value for each field,
in the same order and of the kind that the field holds. -/
theorem takes_flatMap_gives {shapes : List OperandShape} {fields : List Field}
    (serves : Serves shapes fields) {operands : List Operand}
    (fit : allFit shapes operands = true) (number : Expression → Int) :
    List.Forall₂ Field.Takes fields (operands.flatMap (gives number)) := by
  induction serves generalizing operands with
  | nil =>
    cases operands with
    | nil => exact .nil
    | cons => cases fit
  | register kind _ ih =>
    obtain ⟨o, others, rfl, fits, fit⟩ := exists_cons_of_allFit fit
    cases o with
    | register r => exact .cons (Field.takes_register kind r) (ih fit)
    | _ => cases fits
  | immediate kind _ ih =>
    obtain ⟨o, others, rfl, fits, fit⟩ := exists_cons_of_allFit fit
    cases o with
    | immediate e => exact .cons (Field.takes_immediate kind (number e)) (ih fit)
    | _ => cases fits
  | memoryOffset _ ih =>
    obtain ⟨o, others, rfl, fits, fit⟩ := exists_cons_of_allFit fit
    cases o with
    | memoryOffset base e => exact .cons trivial (.cons trivial (ih fit))
    | _ => cases fits
  | memoryAbsolute _ ih =>
    obtain ⟨o, others, rfl, fits, fit⟩ := exists_cons_of_allFit fit
    cases o with
    | memoryAbsolute e => exact .cons trivial (ih fit)
    | _ => cases fits
  | target _ ih =>
    obtain ⟨o, others, rfl, fits, fit⟩ := exists_cons_of_allFit fit
    cases o with
    | immediate e | bare e => exact .cons trivial (ih fit)
    | _ => cases fits

/-- The value of an expression, or zero if it has none. -/
def numberOf (table : SymbolTable) (e : Expression) : Int :=
  (e.evaluate table).toOption.getD 0

theorem gives_of_evaluate {o : Operand} {values : List OperandValue}
    (evaluated : o.evaluate table = .ok values) : o.gives (numberOf table) = values := by
  cases o with
  | register r => exact Except.ok.inj evaluated
  | string bytes => exact Except.ok.inj evaluated
  | immediate e | memoryAbsolute e | bare e | memoryOffset base e =>
    obtain ⟨v, found, rfl⟩ := Except.map_eq_ok_iff.mp evaluated
    rw [gives, numberOf, found]
    rfl

theorem takes_of_allFit {shapes : List OperandShape} {fields : List Field}
    (serves : Serves shapes fields) {operands : List Operand} {values : List (List OperandValue)}
    (fit : allFit shapes operands = true)
    (evaluated : List.Forall₂ (fun o vs => o.evaluate table = .ok vs) operands values) :
    List.Forall₂ Field.Takes fields values.flatten := by
  have given : operands.map (gives (numberOf table)) = values := by
    rw [← List.forall₂_eq_eq_eq, List.forall₂_map_left_iff]
    exact evaluated.imp fun _ _ => gives_of_evaluate
  rw [← given, ← List.flatMap_def]
  exact takes_flatMap_gives serves fit (numberOf table)

end Operand

/-! ## Statements -/

/-- The value of the expression is not in a range. -/
def Expression.IsOutside (e : Expression) (table : SymbolTable) (lo hi : Int) : Prop :=
  ∃ v, e.evaluate table = .ok v ∧ ¬(lo ≤ v ∧ v < hi)

namespace StatementBody

/-- Some value of the statement does not fit: an expression overflows, the value of an operand is
out of the range of its field, or a listed value is out of that of a word or a byte. -/
def Misfits (table : SymbolTable) : StatementBody → Prop
  | .instruction opcode operands =>
    (∃ o ∈ operands, o.1.Overflows table) ∨
      ∃ values, (operands.mapM fun o => o.1.evaluate table) = .ok values ∧
        SomeOutOfRange opcode.fields values.flatten
  | .words _ values =>
    ∃ e ∈ values, e.Overflows table ∨ e.IsOutside table (-0x80000000) 0x100000000
  | .bytes _ values => ∃ e ∈ values, e.Overflows table ∨ e.IsOutside table (-0x80) 0x100
  | .string .. => False

/-- The operands of the statement fit the shapes of its opcode, if it is an instruction. -/
def IsShaped : StatementBody → Prop
  | .instruction opcode operands => Operand.allFit opcode.shapes (operands.map (·.1)) = true
  | .words .. | .bytes .. | .string .. => True

end StatementBody

/-- Every symbol of the statement is defined. -/
def Statement.IsDefined (s : Statement) (table : SymbolTable) : Prop :=
  ∀ e ∈ s.expressions, e.IsDefined table

variable {table : SymbolTable}

theorem emitWord_failsIff {e : Expression} (defined : e.IsDefined table) :
    Except.FailsIff (e.Overflows table ∨ e.IsOutside table (-0x80000000) 0x100000000)
      (·.cause.IsMisfit) (emitWord table e) := by
  refine Except.FailsIff.bind (Expression.evaluate_failsIff defined) fun v _ => ?_
  split
  · next fits =>
    simp only [Layout.fitsWord, Bool.and_eq_true, decide_eq_true_eq] at fits
    exact .ok (not_not_intro fits)
  · next outside =>
    simp only [Layout.fitsWord, Bool.and_eq_true, decide_eq_true_eq] at outside
    exact .error ⟨outside, trivial⟩

theorem emitByte_failsIff {e : Expression} (defined : e.IsDefined table) :
    Except.FailsIff (e.Overflows table ∨ e.IsOutside table (-0x80) 0x100)
      (·.cause.IsMisfit) (emitByte table e) := by
  refine Except.FailsIff.bind (Expression.evaluate_failsIff defined) fun v _ => ?_
  split
  · next fits => exact .ok (not_not_intro fits)
  · next outside => exact .error ⟨outside, trivial⟩

theorem emitInstruction_failsIff {opcode : Opcode} {operands : List (Operand × Nat)}
    (fit : Operand.allFit opcode.shapes (operands.map (·.1)) = true)
    (defined : ∀ o ∈ operands, ∀ e, o.1.expression? = some e → e.IsDefined table) (column : Nat) :
    Except.FailsIff (StatementBody.Misfits table (.instruction opcode operands))
      (·.cause.IsMisfit) (emitInstruction table column opcode operands) := by
  refine Except.FailsIff.bind (.mapM fun o member => Operand.evaluate_failsIff (defined o member))
    fun values evaluated => ?_
  have takes : List.Forall₂ Field.Takes opcode.fields values.flatten :=
    Operand.takes_of_allFit opcode.serves fit
      (List.forall₂_map_left_iff.mpr (Except.mapM_eq_ok_iff.mp evaluated))
  have packed := Except.FailsIff.map (Operands.pack_failsIff takes) (Instruction.mk opcode)
  rw [← Instruction.ofOperands] at packed
  dsimp only
  split
  · next made =>
    rw [made] at packed
    cases packed with
    | ok good => exact .ok good
  · next made =>
    rw [made] at packed
    obtain ⟨bad, v, field, rfl, -⟩ := packed.of_error
    exact .error ⟨bad, trivial⟩

/-- **Only values keep a statement from being encoded.** A statement with defined symbols and
operands that fit its opcode is encoded unless some value misfits, and fails for that otherwise. -/
theorem Statement.emit_failsIff {s : Statement} (shaped : s.body.IsShaped)
    (defined : s.IsDefined table) :
    Except.FailsIff (s.body.Misfits table) (·.cause.IsMisfit) (s.emit table) := by
  rw [IsDefined, expressions] at defined
  rw [emit]
  split
  · next opcode operands body =>
    rw [body] at shaped defined ⊢
    have each : ∀ o ∈ operands, ∀ e, o.1.expression? = some e → e.IsDefined table :=
      fun o member e found => defined e (List.mem_filterMap.mpr ⟨o, member, found⟩)
    exact (emitInstruction_failsIff shaped each s.column).map _
  · next body =>
    rw [body] at defined ⊢
    exact Except.FailsIff.map (.mapM fun e member => emitWord_failsIff (defined e member)) _
  · next body =>
    rw [body] at defined ⊢
    exact Except.FailsIff.map (.mapM fun e member => emitByte_failsIff (defined e member)) _
  · next body =>
    rw [body]
    exact .ok not_false

end RobotMachine
