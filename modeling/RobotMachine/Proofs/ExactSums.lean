import Mathlib.Data.List.Infix
import RobotMachine.Proofs.ExpressionGrammar

/-!
# Exact sums

An expression is summed from left to right with a check behind every term. While the sums so far fit
in 64 bits with a sign, the check does not show and the result is the sum as a number; the first one
that does not fit ends the summing.

* `Expression.sum_of_fits`, `Expression.sum_of_overflow`: the two outcomes.
* `Expression.isExactSum`: what is read as an expression, and what it then means.
-/

namespace RobotMachine

/-! ## Values -/

/-- The number that a value stands for where its symbols are defined. -/
def TermValue.value? (table : SymbolTable) : TermValue → Option Int
  | .number n => some n
  | .symbol name => table.value? name

/-- The number that a signed value stands for. -/
def SignedValue.value? (table : SymbolTable) (value : SignedValue) : Option Int :=
  (value.2.value? table).map fun size => if value.1 then -size else size

theorem Term.evaluate_of_value? {table : SymbolTable} {t : Term} {v : Int}
    (known : t.signed.value? table = some v) : t.evaluate table = .ok v := by
  obtain ⟨negative, column, value⟩ := t
  obtain ⟨size, found, rfl⟩ := Option.map_eq_some_iff.mp known
  cases value with
  | number n =>
    have same : (n : Int) = size := Option.some.inj found
    rw [← same]
    rfl
  | symbol name =>
    have found : table.value? name = some size := found
    simp only [evaluate, magnitude, found]
    rfl

theorem exists_numbers {table : SymbolTable} {values : List SignedValue}
    (defined : ∀ value ∈ values, (value.2.value? table).isSome) :
    ∃ numbers, List.Forall₂ (fun value v => value.value? table = some v) values numbers := by
  induction values with
  | nil => exact ⟨[], .nil⟩
  | cons value values ih =>
    rw [List.forall_mem_cons] at defined
    obtain ⟨numbers, known⟩ := ih defined.2
    obtain ⟨size, sized⟩ := Option.isSome_iff_exists.mp defined.1
    exact ⟨_ :: numbers, .cons (Option.map_eq_some_iff.mpr ⟨size, sized, rfl⟩) known⟩

/-- Signed values stand for one number each. -/
theorem eq_of_value? {table : SymbolTable} {values : List SignedValue} {numbers numbers' : List Int}
    (known : List.Forall₂ (fun value v => value.value? table = some v) values numbers)
    (known' : List.Forall₂ (fun value v => value.value? table = some v) values numbers') :
    numbers = numbers' :=
  List.right_unique_forall₂' (fun _ _ _ same same' => Option.some.inj (same.symm.trans same'))
    known known'

/-! ## Sums -/

theorem fitsNumber_iff {v : Int} : fitsNumber v = true ↔ -2 ^ 63 ≤ v ∧ v < 2 ^ 63 := by
  rw [fitsNumber, Bool.and_eq_true, decide_eq_true_iff, decide_eq_true_iff]
  exact Iff.rfl

namespace Expression

section

variable {table : SymbolTable} {column : Nat} {ts : List Term} {numbers : List Int} {total : Int}
  (known : List.Forall₂ (fun t v => t.signed.value? table = some v) ts numbers)

include known

theorem sum_of_fits (fits : ∀ front, front <+: numbers → fitsNumber (total + front.sum) = true) :
    sum table column total ts = .ok (total + numbers.sum) := by
  induction known generalizing total with
  | nil =>
    rw [List.sum_nil, Int.add_zero]
    rfl
  | @cons t v ts numbers head _ ih =>
    have first := fits [v] (List.prefix_append [v] numbers)
    rw [List.sum_singleton] at first
    rw [sum, Term.evaluate_of_value? head, Except.ok_bind, if_pos first, List.sum_cons,
      ← Int.add_assoc]
    refine ih fun front isPrefix => ?_
    have longer := fits (v :: front) (List.cons_prefix_cons.mpr ⟨rfl, isPrefix⟩)
    rwa [List.sum_cons, ← Int.add_assoc] at longer

theorem sum_of_overflow (start : fitsNumber total = true) {front : List Int}
    (isPrefix : front <+: numbers) (overflows : ¬fitsNumber (total + front.sum) = true) :
    sum table column total ts = .error ⟨column, .expressionOverflows⟩ := by
  induction known generalizing total front with
  | nil =>
    rw [List.prefix_nil.mp isPrefix, List.sum_nil, Int.add_zero] at overflows
    exact absurd start overflows
  | @cons t v ts numbers head _ ih =>
    rw [sum, Term.evaluate_of_value? head, Except.ok_bind]
    split
    · next goesOn =>
      cases front with
      | nil =>
        rw [List.sum_nil, Int.add_zero] at overflows
        exact absurd start overflows
      | cons w front =>
        obtain ⟨rfl, shorter⟩ := List.cons_prefix_cons.mp isPrefix
        rw [List.sum_cons, ← Int.add_assoc] at overflows
        exact ih goesOn shorter overflows
    · rfl

end

/-- A text is an expression exactly when the grammar derives it. Where its symbols are defined, its
value is the sum of its terms as numbers if every sum of its first terms fits in 64 bits with a
sign. It is refused otherwise. -/
theorem isExactSum (f : Fragment) :
    ((∃ e, parse f = .ok e) ↔ ∃ values, SpellsSum values f.text) ∧
      ∀ e values table, parse f = .ok e → SpellsSum values f.text →
        (∀ value ∈ values, (value.2.value? table).isSome) →
        ∃ numbers, List.Forall₂ (fun value v => value.value? table = some v) values numbers ∧
          ((∀ front, front <+: numbers → -2 ^ 63 ≤ front.sum ∧ front.sum < 2 ^ 63) →
            e.evaluate table = .ok numbers.sum) ∧
          ((∃ front, front <+: numbers ∧ ¬(-2 ^ 63 ≤ front.sum ∧ front.sum < 2 ^ 63)) →
            ∃ error, e.evaluate table = .error error ∧
              error.cause.kind.name = "encoding error" ∧
              error.cause.message = "expression overflows") := by
  refine ⟨⟨fun read => ?_, fun spelled => ?_⟩, fun e values table read spells defined => ?_⟩
  · obtain ⟨e, read⟩ := read
    exact ⟨_, spellsSum_of_parse read⟩
  · obtain ⟨values, spells⟩ := spelled
    obtain ⟨e, read, -⟩ := parse_of_spellsSum spells
    exact ⟨e, read⟩
  · cases eq_of_spellsSum spells (spellsSum_of_parse read)
    obtain ⟨numbers, known⟩ := exists_numbers defined
    have terms := List.forall₂_map_left_iff.mp known
    have exact (front : List Int) : fitsNumber (0 + front.sum) = true ↔
        -2 ^ 63 ≤ front.sum ∧ front.sum < 2 ^ 63 := by
      rw [Int.zero_add, fitsNumber_iff]
    refine ⟨numbers, known, fun fits => ?_, fun overflow => ?_⟩
    · rw [evaluate, sum_of_fits terms fun front isPrefix => (exact front).mpr (fits front isPrefix),
        Int.zero_add]
    · obtain ⟨front, isPrefix, overflows⟩ := overflow
      exact ⟨⟨e.column, .expressionOverflows⟩,
        sum_of_overflow terms (by decide) isPrefix (mt (exact front).mp overflows), rfl, rfl⟩

/-- A sum up to the largest number, if the symbol takes away what the character adds. -/
def edgeSum : Fragment :=
  ⟨1, "x + '\\t' - -0x7fffffffffffffff".toList⟩

theorem isExactSum_edgeSum : ∃ e, parse edgeSum = .ok e ∧
    e.evaluate [("x", -9)] = .ok 0x7fffffffffffffff ∧
    ∃ error, e.evaluate [("x", 0)] = .error error ∧
      error.cause.message = "expression overflows" := by
  have found : (parse edgeSum).toOption.map (fun e => e.terms.map Term.signed) =
      some [(false, .symbol "x"), (false, .number 9), (false, .number 0x7fffffffffffffff)] := by
    decide +kernel
  obtain ⟨e, read, signed⟩ := Option.map_eq_some_iff.mp found
  rw [Except.toOption_eq_some_iff] at read
  have spells := spellsSum_of_parse read
  rw [signed] at spells
  obtain ⟨-, means⟩ := isExactSum edgeSum
  refine ⟨e, read, ?_, ?_⟩
  · obtain ⟨numbers, known, fits, -⟩ := means e _ [("x", -9)] read spells (by decide)
    have same : numbers = [-9, 9, 0x7fffffffffffffff] :=
      eq_of_value? known (.cons rfl (.cons rfl (.cons rfl .nil)))
    subst same
    have each : ∀ front ∈ [-9, 9, 0x7fffffffffffffff].inits,
        (-2 : Int) ^ 63 ≤ front.sum ∧ front.sum < (2 : Int) ^ 63 := by
      decide
    exact fits fun front isPrefix => each front ((List.mem_inits _ _).mpr isPrefix)
  · obtain ⟨numbers, known, -, overflow⟩ := means e _ [("x", 0)] read spells (by decide)
    have same : numbers = [0, 9, 0x7fffffffffffffff] :=
      eq_of_value? known (.cons rfl (.cons rfl (.cons rfl .nil)))
    subst same
    obtain ⟨error, outcome, -, message⟩ := overflow ⟨_, List.prefix_rfl, by decide⟩
    exact ⟨error, outcome, message⟩

end Expression

end RobotMachine
