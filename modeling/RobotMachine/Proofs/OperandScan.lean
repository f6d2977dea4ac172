import RobotMachine.Assembly.Layout
import RobotMachine.Proofs.ExpressionScan
import Mathlib.Data.List.TakeWhile

/-!
# Reading operands in place

Whether a word is an identifier, or looks like the name of a register, is found out by its bytes.
An operand between brackets is cut at its commas like the operands of a line.

* `Operand.parseInPlace_eq`: every operand is read as `Operand.parse` reads it.
-/

namespace RobotMachine

/-! ## Names and registers -/

section Words

variable {p : Char → Bool} {text : List Char}

theorem utf8Length_takeWhile_eq_iff :
    utf8Length (text.takeWhile p) = utf8Length text ↔ text.all p = true := by
  have whole := congrArg utf8Length (List.takeWhile_append_dropWhile (p := p) (l := text))
  rw [utf8Length_append] at whole
  rw [List.all_eq_true, ← List.dropWhile_eq_nil_iff]
  constructor
  · intro same
    by_contra more
    have := utf8Length_pos more
    omega
  · intro none
    rwa [none] at whole

theorem all_bytes_iff (ascii : AsciiOnly p) :
    ((utf8Bytes text).map byteChar).all p = text.all p := by
  rw [Bool.eq_iff_iff, List.all_eq_true, ← List.takeWhile_eq_self_iff,
    ← utf8Length_takeWhile_eq_iff, ← length_takeWhile_utf8Bytes ascii, ← length_utf8Bytes,
    ← List.length_map byteChar]
  exact ⟨fun same => congrArg _ same, fun same => (List.takeWhile_prefix p).eq_of_length same⟩

theorem toUpper_eq_R_iff {c : Char} : c.toUpper = 'R' ↔ c = 'r' ∨ c = 'R' := by
  constructor
  · intro upper
    unfold Char.toUpper at upper
    split at upper
    · next lower =>
      have atLeast : 'a'.val.toNat ≤ c.val.toNat := lower.1
      have atMost : c.val.toNat ≤ 'z'.val.toNat := lower.2
      have moved := congrArg (fun c => c.val.toNat) upper
      simp at moved atLeast atMost
      have code : c.toNat = 'r'.toNat := by
        have : 'r'.toNat = 114 := rfl
        omega
      exact .inl (Char.ext (UInt32.toNat_inj.mp code))
    · exact .inr upper
  · rintro (rfl | rfl) <;> decide

end Words

/-- Whether a text is an identifier. -/
def Fragment.isIdentifierInPlace (f : Fragment) : Checked LineError Bool :=
  if f.bytes.length = 0 then .ok false
  else do
    let b ← f.byteIn 0
    if isIdentifierStart b then
      let stop ← f.runEnd isIdentifierChar 0
      return stop == f.bytes.length
    else
      return false

/-- `Layout.expectSymbolName` in place. -/
def expectSymbolNameInPlace (f : Fragment) : Checked LineError Unit := do
  let isIdentifier ← f.isIdentifierInPlace
  if isIdentifier then return else .error (.refused ⟨f.column, .expectedSymbolName f.toString⟩)

/-- Whether a text is an R with digits behind it. -/
def Fragment.isNumberedInPlace (f : Fragment) : Checked LineError Bool :=
  if 1 < f.bytes.length then do
    let b ← f.byteIn 0
    if b = 'r' ∨ b = 'R' then
      let digits ← f.bytesFrom 1
      return digits.all Char.isDigit
    else
      return false
  else
    .ok false

/-- `Fragment.toRegister?` in place. -/
def Fragment.toRegisterInPlace (f : Fragment) : Checked LineError (Option Register) :=
  match Register.ofName? f.text with
  | some r => .ok (some r)
  | none => do
    let isNumbered ← f.isNumberedInPlace
    if isNumbered then .error (.refused ⟨f.column, .invalidRegister f.toString⟩) else return none

theorem Fragment.isIdentifierInPlace_eq (f : Fragment) :
    f.isIdentifierInPlace =
      .ok (f.text.head?.any isIdentifierStart && f.text.all isIdentifierChar) := by
  have leaves := Leaves.refl f
  have length := leaves.length_bytes
  rw [Nat.zero_add] at length
  obtain ⟨column, text⟩ := f
  cases text with
  | nil => rfl
  | cons c text =>
    obtain ⟨b, found, same⟩ := leaves.byteIn_head (ε := LineError) rfl
    have more := leaves.lt_length rfl
    rw [isIdentifierInPlace, if_neg (Nat.ne_of_gt more), found, Except.ok_bind,
      asciiOnly_isIdentifierStart.eq_of_sameAscii same, leaves.runEnd_eq asciiOnly_isIdentifierChar,
      Nat.zero_add, length, List.head?_cons, Option.any_some]
    cases isIdentifierStart c with
    | false => rfl
    | true =>
      refine congrArg Except.ok (Bool.eq_iff_iff.mpr ?_)
      rw [beq_iff_eq, utf8Length_takeWhile_eq_iff, Bool.true_and]

theorem expectSymbolNameInPlace_eq (f : Fragment) :
    expectSymbolNameInPlace f = checked (Layout.expectSymbolName f) := by
  rw [expectSymbolNameInPlace, f.isIdentifierInPlace_eq, Except.ok_bind, Layout.expectSymbolName]
  simp only [Bool.and_eq_true]
  split <;> rfl

theorem Fragment.isNumberedInPlace_eq (f : Fragment) :
    f.isNumberedInPlace =
      .ok (match f.text with
        | c :: digits => decide (c.toUpper = 'R' ∧ digits ≠ [] ∧ digits.all Char.isDigit)
        | [] => false) := by
  have leaves := Leaves.refl f
  obtain ⟨column, text⟩ := f
  cases text with
  | nil => rfl
  | cons c digits =>
    obtain ⟨b, found, same⟩ := leaves.byteIn_head (ε := LineError) rfl
    rw [isNumberedInPlace, found, Except.ok_bind]
    simp only [same.eq_iff (k := 'r') (by decide), same.eq_iff (k := 'R') (by decide),
      ← toUpper_eq_R_iff]
    by_cases upper : c.toUpper = 'R'
    · have ascii : c.toNat < 128 := by
        rcases toUpper_eq_R_iff.mp upper with rfl | rfl <;> decide
      have behind : Leaves ⟨column, c :: digits⟩ 1 ⟨column + 1, digits⟩ := by
        have next := leaves.next rfl
        rwa [utf8Size_of_ascii ascii, Nat.zero_add] at next
      rw [if_pos upper, behind.bytesFrom_eq, Except.ok_bind, all_bytes_iff asciiOnly_isDigit]
      by_cases more : digits = []
      · rw [if_neg (mt behind.lt_length_iff.mp (not_not.mpr more))]
        simp [more]
      · rw [if_pos (behind.lt_length_iff.mpr more)]
        refine congrArg Except.ok ?_
        rw [Bool.eq_iff_iff, decide_eq_true_eq]
        exact ⟨fun all => ⟨upper, more, all⟩, fun numbered => numbered.2.2⟩
    · rw [if_neg upper]
      simp only [upper, false_and, decide_false]
      split <;> rfl

theorem Fragment.toRegisterInPlace_eq (f : Fragment) :
    f.toRegisterInPlace = checked f.toRegister? := by
  rw [toRegisterInPlace, toRegister?]
  cases Register.ofName? f.text with
  | some r => rfl
  | none =>
    simp only [f.isNumberedInPlace_eq, Except.ok_bind]
    cases f.text with
    | nil => rfl
    | cons c digits =>
      simp only [decide_eq_true_eq]
      split <;> rfl

/-! ## Operands -/

/-- `Operand.ofMemoryParts` in place. -/
def Operand.ofMemoryPartsInPlace (opened : Nat) : List Fragment → Checked LineError Operand
  | [] => .error (.refused ⟨opened, .emptyMemoryOperand⟩)
  | [single] =>
    if single.text.head? = some '#' then
      (Expression.parseInPlace (single.drop 1)).map .memoryAbsolute
    else do
      match ← single.toRegisterInPlace with
      | some base => return .memoryOffset base (.zero single.column)
      | none => return .memoryAbsolute (← Expression.parseInPlace single)
  | [base, offset] => do
    match ← base.toRegisterInPlace with
    | none => .error (.refused ⟨base.column, .expectedBaseRegister⟩)
    | some r =>
      if offset.text.head? = some '#' then
        return .memoryOffset r (← Expression.parseInPlace (offset.drop 1))
      else
        .error (.refused ⟨offset.column, .expectedOffset⟩)
  | _ :: _ :: extra :: _ => .error (.refused ⟨extra.column, .tooManyParts⟩)

/-- `Operand.parse` in place. A string is read character by character, without an index. -/
def Operand.parseInPlace (f : Fragment) : Checked LineError Operand :=
  match f.text with
  | '[' :: text =>
    if text.getLast? = some ']' then do
      Operand.ofMemoryPartsInPlace f.column (← (f.drop 1).dropLast.splitOperandsInPlace)
    else
      .error (.refused ⟨f.column, .unclosedMemoryOperand⟩)
  | '#' :: _ => (Expression.parseInPlace (f.drop 1)).map .immediate
  | '"' :: _ => checked (f.toStringBytes.map .string)
  | _ => do
    match ← f.toRegisterInPlace with
    | some r => return .register r
    | none => return .bare (← Expression.parseInPlace f)

theorem Operand.ofMemoryPartsInPlace_eq (opened : Nat) (parts : List Fragment) :
    ofMemoryPartsInPlace opened parts = checked (ofMemoryParts opened parts) := by
  match parts with
  | [] => rfl
  | [single] =>
    rw [ofMemoryPartsInPlace, ofMemoryParts, single.toRegisterInPlace_eq]
    split
    · rw [Expression.parseInPlace_eq, checked_map]
    · rw [checked_bind]
      refine bind_congr fun register => ?_
      cases register with
      | some base => rfl
      | none =>
        simp only [Expression.parseInPlace_eq, checked_bind]
        rfl
  | [base, offset] =>
    rw [ofMemoryPartsInPlace, ofMemoryParts, base.toRegisterInPlace_eq, checked_bind]
    refine bind_congr fun register => ?_
    cases register with
    | none => rfl
    | some r =>
      simp only
      split
      · rw [Expression.parseInPlace_eq, checked_bind]
        rfl
      · rfl
  | _ :: _ :: extra :: _ => rfl

section Bare

variable {f : Fragment} (memory : f.text.head? ≠ some '[') (immediate : f.text.head? ≠ some '#')
  (string : f.text.head? ≠ some '"')

include memory immediate string

theorem Operand.parse_bare :
    parse f = do
      match ← f.toRegister? with
      | some r => return .register r
      | none => return .bare (← Expression.parse f) := by
  rw [parse]
  split
  · next opens => exact (memory (congrArg List.head? opens)).elim
  · next opens => exact (immediate (congrArg List.head? opens)).elim
  · next opens => exact (string (congrArg List.head? opens)).elim
  · rfl

theorem Operand.parseInPlace_bare :
    parseInPlace f = do
      match ← f.toRegisterInPlace with
      | some r => return .register r
      | none => return .bare (← Expression.parseInPlace f) := by
  rw [parseInPlace]
  split
  · next opens => exact (memory (congrArg List.head? opens)).elim
  · next opens => exact (immediate (congrArg List.head? opens)).elim
  · next opens => exact (string (congrArg List.head? opens)).elim
  · rfl

end Bare

/-- Every operand is read without a cut inside a character, and the reading ends. -/
theorem Operand.parseInPlace_eq (f : Fragment) : parseInPlace f = checked (parse f) := by
  obtain ⟨column, text⟩ := f
  by_cases memory : text.head? = some '['
  · obtain ⟨inner, rfl⟩ := List.head?_eq_some_iff.mp memory
    simp only [parseInPlace, parse]
    split
    · rw [Fragment.splitOperandsInPlace_eq, checked_bind]
      exact bind_congr fun parts => ofMemoryPartsInPlace_eq column parts
    · rfl
  by_cases immediate : text.head? = some '#'
  · obtain ⟨value, rfl⟩ := List.head?_eq_some_iff.mp immediate
    simp only [parseInPlace, parse]
    rw [Expression.parseInPlace_eq, checked_map]
  by_cases string : text.head? = some '"'
  · obtain ⟨literal, rfl⟩ := List.head?_eq_some_iff.mp string
    rfl
  rw [parseInPlace_bare memory immediate string, parse_bare memory immediate string,
    Fragment.toRegisterInPlace_eq, checked_bind]
  refine bind_congr fun register => ?_
  cases register with
  | some r => rfl
  | none =>
    simp only [Expression.parseInPlace_eq, checked_bind]
    rfl

end RobotMachine
