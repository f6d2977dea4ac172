import RobotMachine.Assembly.Operand
import RobotMachine.Instruction.Disassembly
import RobotMachine.Proofs.Numerals
import RobotMachine.Proofs.Words

/-!
# Printed operands

Each operand of an instruction is printed in a way that is read back as the same operand: registers
by their names, immediates and offsets in decimal, addresses in hexadecimal.

* `ReadsAs`: what it means that a text is read as an operand.
* `readAll_operandTexts`: the printed operands of an instruction are read as its operands.
-/

namespace RobotMachine

/-- Wherever the text stands, it is an operand of the shape, which has no symbols in it and has
the values. -/
structure ReadsAs (text : List Char) (shape : OperandShape) (values : List OperandValue) :
    Prop where
  isOperandText : IsOperandText text
  parse : ∀ column, ∃ o, Operand.parse ⟨column, text⟩ = .ok o ∧ o.fits shape = true ∧
    (∀ e, o.expression? = some e → e.symbols = []) ∧ ∀ table, o.evaluate table = .ok values

/-- An operand that is made of a constant expression, and of a register before it if there is one,
is read with the value of the constant. -/
theorem ReadsAs.of_isConstant {text : List Char} {shape : OperandShape} {v : Int}
    (operand : IsOperandText text) (front : List OperandValue) (make : Expression → Operand)
    (fits : ∀ e, (make e).fits shape = true) (expression : ∀ e, (make e).expression? = some e)
    (value : ∀ table e, (make e).evaluate table =
      (e.evaluate table).map fun v => front ++ [.integer v])
    (parse : ∀ column, ∃ f : Fragment, f.IsConstant v ∧
      Operand.parse ⟨column, text⟩ = (Expression.parse f).map make) :
    ReadsAs text shape (front ++ [.integer v]) := by
  refine ⟨operand, fun column => ?_⟩
  obtain ⟨f, ⟨e, parsed, noSymbols, constant⟩, made⟩ := parse column
  refine ⟨make e, ?_, fits e, ?_, fun table => ?_⟩
  · rw [made, parsed]
    rfl
  · intro e' same
    rw [expression] at same
    cases same
    exact noSymbols
  · rw [value, constant]
    rfl

/-! ## Words of numbers -/

theorem isWordChar_of_mem_toDigits {radix n : Nat} (least : 1 < radix) (most : radix ≤ 16)
    {c : Char} (member : c ∈ Nat.toDigits radix n) : isWordChar c = true :=
  isWordChar_of_isAlphanum (isAlphanum_of_mem_toDigits least most member)

theorem isWordChar_of_mem_hex {n : Nat} {c : Char} (member : c ∈ (hex n).toList) :
    isWordChar c = true := by
  rw [toList_hex] at member
  rcases List.mem_cons.mp member with rfl | member
  · decide
  rcases List.mem_cons.mp member with rfl | member
  · decide
  · exact isWordChar_of_mem_toDigits (by decide) (by decide) member

theorem isWordChar_of_mem_toString {v : Int} {c : Char} (member : c ∈ (toString v).toList) :
    isWordChar c = true := by
  cases v with
  | ofNat n =>
    rw [toList_toString_ofNat] at member
    exact isWordChar_of_mem_toDigits (by decide) (by decide) member
  | negSucc n =>
    rw [toList_toString_negSucc] at member
    rcases List.mem_cons.mp member with rfl | member
    · decide
    · exact isWordChar_of_mem_toDigits (by decide) (by decide) member

/-! ## Registers -/

namespace Register

theorem ofName?_name (r : Register) : ofName? r.name.toList = some r := by
  have each : ∀ i : Fin 15, ofName? (name ⟨i⟩).toList = some ⟨i⟩ := by decide +kernel
  exact each r.index

theorem isName_name (r : Register) : IsName r.name.toList := by
  have starts : ∀ i : Fin 15, (name ⟨i⟩).toList.head?.any Char.isAlpha = true := by
    decide +kernel
  have alphanum : ∀ i : Fin 15, (name ⟨i⟩).toList.all Char.isAlphanum = true := by
    decide +kernel
  exact .of_checks (starts r.index) (alphanum r.index)

end Register

theorem Fragment.toRegister?_name (column : Nat) (r : Register) :
    toRegister? ⟨column, r.name.toList⟩ = .ok (some r) := by
  simp only [toRegister?, r.ofName?_name]

/-- A text that starts with a letter or digit is a register or an expression. -/
theorem Operand.parse_of_isAlphanum {column : Nat} {c : Char} {text : List Char}
    (alphanum : c.isAlphanum = true) :
    parse ⟨column, c :: text⟩ = do
      match ← Fragment.toRegister? ⟨column, c :: text⟩ with
      | some r => return .register r
      | none => return .bare (← Expression.parse ⟨column, c :: text⟩) := by
  unfold parse
  dsimp only
  split
  · next same =>
    cases same
    cases alphanum
  · next same =>
    cases same
    cases alphanum
  · next same =>
    cases same
    cases alphanum
  · rfl

theorem isOperandText_name (r : Register) : IsOperandText r.name.toList := by
  obtain ⟨⟨c, rest, same, -⟩, alphanum⟩ := r.isName_name
  refine .word ?_ fun d member => isWordChar_of_isAlphanum (alphanum d member)
  rw [same]
  exact List.cons_ne_nil c rest

theorem readsAs_register (r : Register) : ReadsAs r.name.toList .register [.register r] := by
  refine ⟨isOperandText_name r, fun column => ⟨.register r, ?_, rfl, nofun, fun _ => rfl⟩⟩
  obtain ⟨c, rest, same, alpha⟩ := r.isName_name.starts
  have first : c.isAlphanum = true := by
    rw [Char.isAlphanum, alpha, Bool.true_or]
  have found := Fragment.toRegister?_name column r
  rw [same] at found ⊢
  rw [Operand.parse_of_isAlphanum first, found]
  rfl

/-! ## Immediates and targets -/

theorem Operand.parse_number (column : Nat) (text : List Char) :
    parse ⟨column, '#' :: text⟩ = (Expression.parse ⟨column + 1, text⟩).map .immediate := rfl

theorem readsAs_immediate {v : Int} (below : v.natAbs < numberLimit) :
    ReadsAs ('#' :: (toString v).toList) .immediate [.integer v] := by
  have words : ∀ c ∈ '#' :: (toString v).toList, isWordChar c = true :=
    List.forall_mem_cons.mpr ⟨by decide, fun c => isWordChar_of_mem_toString⟩
  refine .of_isConstant (.word (List.cons_ne_nil _ _) words) [] .immediate (fun _ => rfl)
    (fun _ => rfl) (fun _ _ => rfl) fun column => ?_
  exact ⟨_, isConstant_toString (column + 1) below, Operand.parse_number column _⟩

theorem isAlpha_toUpper_of_isDigit {c : Char} (digit : c.isDigit = true) :
    c.toUpper.isAlpha = false := by
  have range := isDigit_iff_toNat.mp digit
  have same : c.toUpper = c := by
    unfold Char.toUpper
    split
    · next lower =>
      have atLeast : 97 ≤ c.toNat := lower.1
      omega
    · rfl
  rw [same, ← Bool.not_eq_true, isAlpha_iff_toNat]
  omega

/-- A text that starts with a digit names no register. -/
theorem Fragment.toRegister?_of_isDigit {column : Nat} {c : Char} {text : List Char}
    (digit : c.isDigit = true) : toRegister? ⟨column, c :: text⟩ = .ok none := by
  have noLetter := isAlpha_toUpper_of_isDigit digit
  have names : ∀ i : Fin 15, (Register.name ⟨i⟩).toList.head?.any Char.isAlpha = true ∧
      (Register.numberedName ⟨i⟩).toList.head?.any Char.isAlpha = true := by
    decide +kernel
  have differs {name : List Char} (starts : name.head?.any Char.isAlpha = true) :
      (c :: text).map Char.toUpper ≠ name := by
    intro same
    rw [← same, List.map_cons, List.head?_cons, Option.any_some, noLetter] at starts
    cases starts
  have unnamed : Register.ofName? (c :: text) = none := by
    rw [Register.ofName?, List.find?_eq_none]
    intro r _ named
    rcases Bool.or_eq_true_iff.mp named with same | same
    · exact differs (names r.index).1 (eq_of_beq same)
    · exact differs (names r.index).2 (eq_of_beq same)
  have noRegister : ¬(c.toUpper = 'R' ∧ text ≠ [] ∧ text.all Char.isDigit = true) := by
    intro looks
    rw [looks.1] at noLetter
    cases noLetter
  simp only [toRegister?, unnamed, if_neg noRegister]

theorem readsAs_target {n : Nat} (below : n < numberLimit) :
    ReadsAs (hex n).toList .target [.integer n] := by
  have nonempty : (hex n).toList ≠ [] := by
    rw [toList_hex]
    exact List.cons_ne_nil _ _
  refine .of_isConstant (.word nonempty fun c => isWordChar_of_mem_hex) [] .bare (fun _ => rfl)
    (fun _ => rfl) (fun _ _ => rfl) fun column => ?_
  refine ⟨_, Fragment.isConstant_hex column below, ?_⟩
  rw [toList_hex, Operand.parse_of_isAlphanum (by decide),
    Fragment.toRegister?_of_isDigit (by decide), Except.ok_bind]
  cases Expression.parse ⟨column, '0' :: 'x' :: Nat.toDigits 16 n⟩ with
  | error e => rfl
  | ok e => rfl

/-! ## Memory operands -/

theorem Operand.parse_bracketed (column : Nat) (inner : List Char) :
    parse ⟨column, '[' :: (inner ++ [']'])⟩ =
      Fragment.splitOperands ⟨column + 1, inner⟩ >>= ofMemoryParts column := by
  have closed : (inner ++ [']']).getLast? = some ']' := List.getLast?_concat
  have inside : (Fragment.drop ⟨column, '[' :: (inner ++ [']'])⟩ 1).dropLast =
      ⟨column + 1, inner⟩ := by
    rw [Fragment.dropLast, Fragment.drop, List.drop_one, List.tail_cons, List.dropLast_concat]
    rfl
  simp only [parse, if_pos closed, inside]

theorem readsAs_memoryAbsolute {n : Nat} (below : n < numberLimit) :
    ReadsAs ('[' :: ('#' :: (hex n).toList ++ [']'])) .memoryAbsolute [.integer n] := by
  have words : ∀ c ∈ '#' :: (hex n).toList, isWordChar c = true :=
    List.forall_mem_cons.mpr ⟨by decide, fun c => isWordChar_of_mem_hex⟩
  have spaced : ∀ c ∈ '#' :: (hex n).toList, isSpacedChar c = true :=
    fun c member => isSpacedChar_of_isWordChar (words c member)
  refine .of_isConstant (.bracketed spaced) [] .memoryAbsolute (fun _ => rfl) (fun _ => rfl)
    (fun _ _ => rfl) fun column => ?_
  have operand : IsOperandText ('#' :: (hex n).toList) := .word (List.cons_ne_nil _ _) words
  obtain ⟨column', split⟩ :=
    Fragment.splitOperands_singleton operand.isOperand (.inl rfl) (column + 1)
  refine ⟨_, Fragment.isConstant_hex (column' + 1) below, ?_⟩
  have behind : Fragment.drop ⟨column', '#' :: (hex n).toList⟩ 1 =
      ⟨column' + 1, (hex n).toList⟩ := rfl
  rw [Operand.parse_bracketed, split, Except.ok_bind, Operand.ofMemoryParts,
    if_pos List.head?_cons, behind]

/-- An offset of zero is not printed. -/
theorem readsAs_base (r : Register) :
    ReadsAs ('[' :: (r.name.toList ++ [']'])) .memoryOffset [.register r, .integer 0] := by
  have noNumber : r.name.toList.head? ≠ some '#' := by
    obtain ⟨c, rest, same, alpha⟩ := r.isName_name.starts
    intro number
    rw [same, List.head?_cons, Option.some.injEq] at number
    rw [number] at alpha
    cases alpha
  refine ⟨.bracketed fun c member => ?_, fun column => ?_⟩
  · exact isSpacedChar_of_isWordChar (isWordChar_of_isAlphanum (r.isName_name.alphanum c member))
  obtain ⟨column', split⟩ :=
    Fragment.splitOperands_singleton (isOperandText_name r).isOperand (.inl rfl) (column + 1)
  refine ⟨.memoryOffset r (.zero column'), ?_, rfl, ?_, fun _ => rfl⟩
  · rw [Operand.parse_bracketed, split, Except.ok_bind, Operand.ofMemoryParts,
      if_neg noNumber, Fragment.toRegister?_name, Except.ok_bind]
    rfl
  · intro e same
    cases same
    rfl

theorem readsAs_offset (r : Register) {v : Int} (below : v.natAbs < numberLimit) :
    ReadsAs ('[' :: (r.name.toList ++ ',' :: ' ' :: '#' :: (toString v).toList ++ [']']))
      .memoryOffset [.register r, .integer v] := by
  have words : ∀ c ∈ '#' :: (toString v).toList, isWordChar c = true :=
    List.forall_mem_cons.mpr ⟨by decide, fun c => isWordChar_of_mem_toString⟩
  have operands : ∀ t ∈ [r.name.toList, '#' :: (toString v).toList], IsOperand t := by
    have number : IsOperandText ('#' :: (toString v).toList) := .word (List.cons_ne_nil _ _) words
    exact List.forall_mem_cons.mpr
      ⟨(isOperandText_name r).isOperand, List.forall_mem_singleton.mpr number.isOperand⟩
  have spaced : ∀ c ∈ r.name.toList ++ ',' :: ' ' :: '#' :: (toString v).toList,
      isSpacedChar c = true := by
    intro c member
    rcases List.mem_append.mp member with inName | member
    · exact isSpacedChar_of_isWordChar
        (isWordChar_of_isAlphanum (r.isName_name.alphanum c inName))
    rcases List.mem_cons.mp member with rfl | member
    · decide
    rcases List.mem_cons.mp member with rfl | member
    · decide
    · exact isSpacedChar_of_isWordChar (words c member)
  refine .of_isConstant (.bracketed spaced) [.register r] (.memoryOffset r) (fun _ => rfl)
    (fun _ => rfl) (fun _ _ => rfl) fun column => ?_
  obtain ⟨fragments, split, same⟩ := Fragment.splitOperands_eq_ok operands
    (.cons (.inl rfl) (.cons (.inr rfl) .nil)) (List.cons_ne_nil _ _) (column + 1)
  rw [List.intercalate_cons_cons, List.intercalate_singleton, List.append_assoc] at split
  obtain ⟨base, rest, rfl, isBase, restSame⟩ := List.map_eq_cons_iff.mp same
  obtain ⟨offset, rfl, isOffset⟩ := List.map_eq_singleton_iff.mp restSame
  refine ⟨_, isConstant_toString (offset.column + 1) below, ?_⟩
  have found := Fragment.toRegister?_name base.column r
  have behind : offset.drop 1 = ⟨offset.column + 1, (toString v).toList⟩ := by
    rw [Fragment.drop, isOffset]
    rfl
  have written : r.name.toList ++ ',' :: ' ' :: '#' :: (toString v).toList ++ [']'] =
      r.name.toList ++ ([','] ++ ' ' :: '#' :: (toString v).toList) ++ [']'] := rfl
  rw [written, Operand.parse_bracketed, split, Except.ok_bind, Operand.ofMemoryParts]
  rw [← isBase] at found
  rw [found, Except.ok_bind]
  dsimp only
  rw [isOffset, if_pos List.head?_cons, behind]
  cases Expression.parse ⟨offset.column + 1, (toString v).toList⟩ with
  | error e => rfl
  | ok e => rfl

theorem readsAs_memoryOffset (r : Register) {v : Int} (below : v.natAbs < numberLimit) :
    ReadsAs (if v = 0 then "[" ++ r.name ++ "]"
      else "[" ++ r.name ++ ", #" ++ toString v ++ "]").toList
      .memoryOffset [.register r, .integer v] := by
  split
  · next zero =>
    have written : ("[" ++ r.name ++ "]").toList = '[' :: (r.name.toList ++ [']']) := by
      rw [String.toList_append, String.toList_append]
      rfl
    rw [zero, written]
    exact readsAs_base r
  · have written : ("[" ++ r.name ++ ", #" ++ toString v ++ "]").toList =
        '[' :: (r.name.toList ++ ',' :: ' ' :: '#' :: (toString v).toList ++ [']']) := by
      simp only [String.toList_append, List.append_assoc]
      rfl
    rw [written]
    exact readsAs_offset r below

/-! ## All operands -/

/-- The texts are read one by one as operands of the shapes, and have the values together. -/
inductive ReadAll : List (List Char) → List OperandShape → List OperandValue → Prop
  | nil : ReadAll [] [] []
  | cons {text shape values texts shapes others} (head : ReadsAs text shape values)
    (tail : ReadAll texts shapes others) :
    ReadAll (text :: texts) (shape :: shapes) (values ++ others)

theorem ReadAll.isOperandText {texts : List (List Char)} {shapes : List OperandShape}
    {values : List OperandValue} (h : ReadAll texts shapes values) :
    ∀ text ∈ texts, IsOperandText text := by
  induction h with
  | nil => nofun
  | cons head tail ih =>
    intro text member
    rcases List.mem_cons.mp member with rfl | member
    · exact head.isOperandText
    · exact ih text member

/-- Fragments with the texts are operands that fit the shapes, have no symbols in them and have
the values under every symbol table. -/
theorem ReadAll.exists_operands {texts : List (List Char)} {shapes : List OperandShape}
    {values : List OperandValue} (h : ReadAll texts shapes values) {fragments : List Fragment}
    (same : fragments.map Fragment.text = texts) :
    ∃ operands : List (Operand × Nat),
      (fragments.mapM fun f => (Operand.parse f).map fun o => (o, f.column)) = .ok operands ∧
        Operand.allFit shapes (operands.map (·.1)) = true ∧
        (∀ o ∈ operands, ∀ e, o.1.expression? = some e → e.symbols = []) ∧
        ∀ table, ∃ groups,
          (operands.mapM fun (o, _) => o.evaluate table) = .ok groups ∧
            groups.flatten = values := by
  induction h generalizing fragments with
  | nil =>
    rw [List.map_eq_nil_iff] at same
    subst same
    exact ⟨[], rfl, rfl, nofun, fun _ => ⟨[], rfl, rfl⟩⟩
  | @cons text shape values texts shapes others head tail ih =>
    obtain ⟨f, rest, rfl, rfl, restSame⟩ := List.map_eq_cons_iff.mp same
    obtain ⟨o, parsed, fits, noSymbols, value⟩ := head.parse f.column
    obtain ⟨operands, parsedAll, fitAll, noSymbolsAll, valueAll⟩ := ih restSame
    refine ⟨(o, f.column) :: operands, ?_, ?_, ?_, fun table => ?_⟩
    · rw [List.mapM_cons, parsed, parsedAll]
      rfl
    · rw [List.map_cons, Operand.allFit, fits, fitAll]
      rfl
    · intro o' member
      rcases List.mem_cons.mp member with rfl | member
      · exact noSymbols
      · exact noSymbolsAll o' member
    · obtain ⟨groups, evaluated, flattened⟩ := valueAll table
      refine ⟨values :: groups, ?_, ?_⟩
      · simp only [List.mapM_cons, value, evaluated]
        rfl
      · rw [List.flatten_cons, flattened]

/-- The operand values of fields are printed as operands that have them. -/
theorem readAll_operandTexts {shapes : List OperandShape} {fields : List Field}
    (serves : Serves shapes fields) (operands : Operands fields) :
    ReadAll ((operandTexts shapes operands.unpack).map String.toList) shapes operands.unpack := by
  induction serves with
  | nil => exact .nil
  | @register f shapes fields kind rest ih =>
    obtain ⟨v, operands⟩ := operands
    obtain ⟨r, same⟩ := Field.exists_register kind v
    rw [Operands.unpack, same]
    exact .cons (readsAs_register r) (ih operands)
  | @immediate f shapes fields kind rest ih =>
    obtain ⟨v, operands⟩ := operands
    obtain ⟨n, same, range⟩ := Field.exists_immediate kind v
    have written : ("#" ++ toString n).toList = '#' :: (toString n).toList := by
      rw [String.toList_append]
      rfl
    rw [Operands.unpack, same, operandTexts, List.map_cons, written]
    exact .cons (readsAs_immediate (Nat.lt_of_le_of_lt range (by decide))) (ih operands)
  | @memoryOffset shapes fields rest ih =>
    obtain ⟨base, offset, operands⟩ := operands
    obtain ⟨r, sameBase⟩ := Field.exists_register (by decide) base
    obtain ⟨n, sameOffset, range⟩ := Field.exists_immediate (by decide) offset
    have unpacked : Operands.unpack (.rn :: .imm16 :: fields) (base, offset, operands) =
        Field.unpack .rn base :: Field.unpack .imm16 offset :: operands.unpack := rfl
    rw [unpacked, sameBase, sameOffset, operandTexts, List.map_cons]
    exact .cons (readsAs_memoryOffset r (Nat.lt_of_le_of_lt range (by decide))) (ih operands)
  | @memoryAbsolute shapes fields rest ih =>
    obtain ⟨v, operands⟩ := operands
    obtain ⟨n, same, range⟩ := Field.exists_address v
    have written : ("[#" ++ hex n ++ "]").toList = '[' :: ('#' :: (hex n).toList ++ [']']) := by
      rw [String.toList_append, String.toList_append]
      rfl
    rw [Operands.unpack, same, operandTexts, List.map_cons, Int.toNat_natCast, written]
    exact .cons (readsAs_memoryAbsolute (Nat.lt_trans range (by decide))) (ih operands)
  | @target shapes fields rest ih =>
    obtain ⟨v, operands⟩ := operands
    obtain ⟨n, same, range⟩ := Field.exists_address v
    rw [Operands.unpack, same, operandTexts, List.map_cons, Int.toNat_natCast]
    exact .cons (readsAs_target (Nat.lt_trans range (by decide))) (ih operands)

end RobotMachine
