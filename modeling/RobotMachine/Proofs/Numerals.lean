import Mathlib.Data.List.TakeWhile
import RobotMachine.Assembly.Expression
import RobotMachine.Proofs.PlainText
import RobotMachine.Text.Column

/-!
# Numbers as they are printed

A number that is printed in decimal or in hexadecimal is read back as an expression of one term.

* `readDigits_toDigits`: the digits of a number give the number.
* `isConstant_toString`, `Fragment.isConstant_hex`: so do its two printed forms.
-/

namespace RobotMachine

/-! ## Digits -/

theorem digitValue?_digitChar {radix d : Nat} (digit : d < radix) (most : radix ≤ 16) :
    digitValue? radix (Nat.digitChar d) = some d := by
  have each : ∀ radix ≤ 16, ∀ d < radix, digitValue? radix (Nat.digitChar d) = some d := by
    decide +kernel
  exact each radix most d digit

theorem readDigits_append {radix limit n m : Nat} {front : List Char}
    (read : readDigits radix limit n front = .ok m) (back : List Char) :
    readDigits radix limit n (front ++ back) = readDigits radix limit m back := by
  induction front generalizing n with
  | nil =>
    cases read
    rfl
  | cons c front ih =>
    rw [List.cons_append, readDigits]
    rw [readDigits] at read
    split at read
    · cases read
    · next d digit =>
      split at read
      · next below =>
        rw [if_pos below]
        exact ih read
      · cases read

theorem readDigits_digitChar {radix limit n d : Nat} (digit : d < radix) (most : radix ≤ 16)
    (below : n * radix + d < limit) :
    readDigits radix limit n [Nat.digitChar d] = .ok (n * radix + d) := by
  simp only [readDigits, digitValue?_digitChar digit most, if_pos below]

theorem readDigits_toDigits {radix limit n : Nat} (least : 1 < radix) (most : radix ≤ 16)
    (below : n < limit) : readDigits radix limit 0 (Nat.toDigits radix n) = .ok n := by
  induction n using Nat.strongRecOn with
  | ind n ih =>
    rw [Nat.toDigits_eq_if least]
    split
    · next digit =>
      have read : readDigits radix limit 0 _ = .ok (0 * radix + n) :=
        readDigits_digitChar digit most (by omega)
      rwa [Nat.zero_mul, Nat.zero_add] at read
    · next large =>
      have shorter : n / radix < n := Nat.div_lt_self (by omega) least
      have split : n / radix * radix + n % radix = n := Nat.div_add_mod' n radix
      have last : n % radix < radix := Nat.mod_lt _ (by omega)
      rw [readDigits_append (ih _ shorter (by omega)), readDigits_digitChar last most (by omega),
        split]

/-- Every character of a printed number is a digit of its radix. -/
theorem exists_digitChar_of_mem_toDigits {radix n : Nat} (least : 1 < radix) {c : Char}
    (member : c ∈ Nat.toDigits radix n) : ∃ d < radix, c = Nat.digitChar d := by
  induction n using Nat.strongRecOn with
  | ind n ih =>
    rw [Nat.toDigits_eq_if least] at member
    split at member
    · next digit => exact ⟨n, digit, List.mem_singleton.mp member⟩
    · next large =>
      rcases List.mem_append.mp member with front | last
      · exact ih _ (Nat.div_lt_self (by omega) least) front
      · exact ⟨n % radix, Nat.mod_lt _ (by omega), List.mem_singleton.mp last⟩

theorem isAlphanum_of_mem_toDigits {radix n : Nat} (least : 1 < radix) (most : radix ≤ 16)
    {c : Char} (member : c ∈ Nat.toDigits radix n) : c.isAlphanum = true := by
  obtain ⟨d, digit, rfl⟩ := exists_digitChar_of_mem_toDigits least member
  have each : ∀ d < 16, (Nat.digitChar d).isAlphanum = true := by decide
  exact each d (by omega)

/-! ## Numerals -/

theorem numeralParts_of_isDigit {text : List Char} (digits : ∀ c ∈ text, c.isDigit = true) :
    numeralParts text = (10, text) := by
  unfold numeralParts
  split
  all_goals first
    | rfl
    | exact absurd (digits _ (List.mem_cons_of_mem _ List.mem_cons_self)) (by decide)

theorem Fragment.toNumber_toDigits (column : Nat) {n : Nat} (below : n < numberLimit) :
    Fragment.toNumber ⟨column, Nat.toDigits 10 n⟩ = .ok n := by
  have digits : ∀ c ∈ Nat.toDigits 10 n, c.isDigit = true := fun c member =>
    Nat.isDigit_of_mem_toDigits (by decide) (by decide) member
  rw [toNumber, numeralParts_of_isDigit digits]
  simp only [readNumeral, if_neg Nat.toDigits_ne_nil,
    readDigits_toDigits (by decide : 1 < 10) (by decide) below]

theorem Fragment.toNumber_hex (column : Nat) {n : Nat} (below : n < numberLimit) :
    Fragment.toNumber ⟨column, '0' :: 'x' :: Nat.toDigits 16 n⟩ = .ok n := by
  simp only [toNumber, numeralParts, readNumeral, if_neg Nat.toDigits_ne_nil,
    readDigits_toDigits (by decide : 1 < 16) (by decide) below]

/-! ## Expressions -/

/-- The fragment is an expression without symbols, which has the value. -/
def Fragment.IsConstant (f : Fragment) (v : Int) : Prop :=
  ∃ e, Expression.parse f = .ok e ∧ e.symbols = [] ∧ ∀ table, e.evaluate table = .ok v

/-- A digit is no blank, no sign and no quote. -/
theorem of_isDigit {c : Char} (digit : c.isDigit = true) :
    isAsciiBlank c = false ∧ c ≠ '-' ∧ c ≠ '+' ∧ c ≠ '\'' := by
  refine ⟨?_, ?_, ?_, ?_⟩
  · cases blank : isAsciiBlank c with
    | false => rfl
    | true =>
      simp only [isAsciiBlank, Bool.or_eq_true, beq_iff_eq] at blank
      rcases blank with (((rfl | rfl) | rfl) | rfl) | rfl <;> cases digit
  all_goals
    intro same
    subst same
    cases digit

section

variable {column n : Nat} {c : Char} {text : List Char}
  (digit : c.isDigit = true) (word : ∀ d ∈ c :: text, isIdentifierChar d = true)
  (number : Fragment.toNumber ⟨column, c :: text⟩ = .ok n)

include digit word number

theorem Fragment.term_of_toNumber :
    Fragment.term ⟨column, c :: text⟩ = .ok (.number n, (c :: text).length) := by
  have whole : Fragment.takeWhile ⟨column, c :: text⟩ isIdentifierChar = ⟨column, c :: text⟩ := by
    rw [takeWhile, List.takeWhile_eq_self_iff.mpr word]
  simp only [term, if_neg (of_isDigit digit).2.2.2, if_pos digit, whole, number]
  rfl

/-- A numeral is a sum of one term, whatever signs stood in front of it. -/
theorem Fragment.terms_of_toNumber (negative : Bool) :
    Fragment.terms negative ⟨column, c :: text⟩ = .ok [⟨negative, column, .number n⟩] := by
  obtain ⟨-, notMinus, notPlus, -⟩ := of_isDigit digit
  have atEnd : (Fragment.drop ⟨column, c :: text⟩ (c :: text).length).skipBlanks.text = [] := by
    rw [skipBlanks, dropWhile, drop, List.drop_length]
    rfl
  rw [terms, dif_neg (List.cons_ne_nil c text), if_neg (by simpa using notMinus),
    if_neg (by simpa using notPlus), term_of_toNumber digit word number]
  dsimp only
  split
  · rfl
  · next more =>
    rw [atEnd] at more
    cases more

end

theorem Expression.evaluate_number {n : Nat} (below : n < numberLimit) (negative : Bool)
    (column column' : Nat) (table : SymbolTable) :
    evaluate table ⟨column, [⟨negative, column', .number n⟩]⟩ =
      .ok (if negative then -(n : Int) else n) := by
  have fits : fitsNumber (if negative then -(n : Int) else n) = true := by
    simp only [fitsNumber, Bool.and_eq_true, decide_eq_true_eq]
    cases negative
    · simp only [Bool.false_eq_true, if_false]
      omega
    · simp only [if_true]
      omega
  simp only [evaluate, sum, Term.evaluate, Term.magnitude, Except.ok_map, Except.ok_bind,
    Int.zero_add, fits, if_true]

theorem Fragment.isConstant_of_toNumber {column n : Nat} {c : Char} {text : List Char}
    (digit : c.isDigit = true) (word : ∀ d ∈ c :: text, isIdentifierChar d = true)
    (number : Fragment.toNumber ⟨column, c :: text⟩ = .ok n) (below : n < numberLimit) :
    IsConstant ⟨column, c :: text⟩ n := by
  refine ⟨⟨column, [⟨false, column, .number n⟩]⟩, ?_, rfl, Expression.evaluate_number below _ _ _⟩
  rw [Expression.parse, skipBlanks_cons (of_isDigit digit).1, terms_of_toNumber digit word number]
  rfl

theorem isIdentifierChar_of_isAlphanum {c : Char} (alphanum : c.isAlphanum = true) :
    isIdentifierChar c = true := by
  rw [isIdentifierChar, alphanum]
  rfl

/-- The decimal digits of a number start with a digit and make one word. -/
theorem exists_cons_of_toDigits (n : Nat) :
    ∃ c text, Nat.toDigits 10 n = c :: text ∧ c.isDigit = true ∧
      ∀ d ∈ c :: text, isIdentifierChar d = true := by
  obtain ⟨c, text, same⟩ := List.exists_cons_of_ne_nil (Nat.toDigits_ne_nil (n := n) (b := 10))
  have digits : ∀ d ∈ c :: text, d.isDigit = true := by
    rw [← same]
    exact fun d member => Nat.isDigit_of_mem_toDigits (by decide) (by decide) member
  refine ⟨c, text, same, digits c List.mem_cons_self, fun d member => ?_⟩
  rw [← same] at member
  exact isIdentifierChar_of_isAlphanum (isAlphanum_of_mem_toDigits (by decide) (by decide) member)

theorem Fragment.isConstant_toDigits (column : Nat) {n : Nat} (below : n < numberLimit) :
    IsConstant ⟨column, Nat.toDigits 10 n⟩ n := by
  obtain ⟨c, text, same, digit, word⟩ := exists_cons_of_toDigits n
  have number := toNumber_toDigits column below
  rw [same] at number ⊢
  exact isConstant_of_toNumber digit word number below

theorem toList_hex (n : Nat) : (hex n).toList = '0' :: 'x' :: Nat.toDigits 16 n := by
  simp only [hex, hexDigits, String.toList_append, String.toList_ofList]
  rfl

theorem toList_toString_ofNat (n : Nat) :
    (toString (Int.ofNat n)).toList = Nat.toDigits 10 n :=
  Nat.toList_repr

theorem toList_toString_negSucc (n : Nat) :
    (toString (Int.negSucc n)).toList = '-' :: Nat.toDigits 10 (n + 1) := by
  have same : toString (Int.negSucc n) = "-" ++ Nat.repr (n + 1) := rfl
  have minus : "-".toList = ['-'] := rfl
  rw [same, String.toList_append, Nat.toList_repr, minus]
  rfl

theorem Fragment.isConstant_hex (column : Nat) {n : Nat} (below : n < numberLimit) :
    IsConstant ⟨column, (hex n).toList⟩ n := by
  rw [toList_hex]
  refine isConstant_of_toNumber (by decide) (fun d member => ?_) (toNumber_hex column below) below
  rcases List.mem_cons.mp member with rfl | member
  · decide
  rcases List.mem_cons.mp member with rfl | member
  · decide
  · exact isIdentifierChar_of_isAlphanum (isAlphanum_of_mem_toDigits (by decide) (by decide) member)

theorem isConstant_toString (column : Nat) {v : Int} (below : v.natAbs < numberLimit) :
    Fragment.IsConstant ⟨column, (toString v).toList⟩ v := by
  cases v with
  | ofNat n =>
    rw [toList_toString_ofNat]
    exact Fragment.isConstant_toDigits column below
  | negSucc n =>
    obtain ⟨c, text, same, digit, word⟩ := exists_cons_of_toDigits (n + 1)
    have number := Fragment.toNumber_toDigits (column + 1) below
    rw [Int.natAbs_negSucc, same] at number
    rw [toList_toString_negSucc, same]
    have behind : (Fragment.drop ⟨column, '-' :: c :: text⟩ 1).skipBlanks =
        ⟨column + 1, c :: text⟩ := Fragment.skipBlanks_cons (of_isDigit digit).1
    refine ⟨⟨column, [⟨true, column + 1, .number (n + 1 : Nat)⟩]⟩, ?_, rfl, ?_⟩
    · rw [Expression.parse, Fragment.skipBlanks_cons (by decide), Fragment.terms,
        dif_neg (List.cons_ne_nil _ _), if_pos List.head?_cons, behind,
        Fragment.terms_of_toNumber digit word number]
      rfl
    · exact Expression.evaluate_number below true _ _

end RobotMachine
