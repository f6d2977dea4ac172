import RobotMachine.Assembly.Literal

/-!
# Expressions

An expression is a sum of signed terms: numbers, characters and symbols. It is evaluated from left
to right, and no sum on the way may leave 64 signed bits.

* `Expression.parse`: reads an expression off a fragment.
* `Expression.evaluate`: its value under a symbol table.
-/

namespace RobotMachine

inductive TermValue
  | number (n : Int)
  | symbol (name : String)
  deriving DecidableEq, Repr

/-- A number or symbol with its sign and its column. -/
structure Term where
  negative : Bool
  column : Nat
  value : TermValue
  deriving DecidableEq, Repr

/-- The sum of some terms, with the column where it starts. -/
structure Expression where
  column : Nat
  terms : List Term
  deriving DecidableEq, Repr

/-! ## Reading -/

/-- The term at the start of a fragment, without its sign, and the number of its characters. -/
def Fragment.term (f : Fragment) : Except LineError (TermValue × Nat) :=
  match f.text with
  | [] => .error ⟨f.column, .expectedValue⟩
  | c :: _ =>
    let word := f.takeWhile isIdentifierChar
    if c = '\'' then f.characterLiteral.map fun (c, length) => (.number c.toNat, length)
    else if c.isDigit then word.toNumber.map fun n => (.number n, word.text.length)
    else if isIdentifierStart c then .ok (.symbol word.toString, word.text.length)
    else .error ⟨f.column, .unexpected c⟩

/-- The terms of a fragment that starts where a term is expected. `negative` is the sign that was
read in front of it. A term may have several signs, and is negated by an odd number of minuses. -/
def Fragment.terms (negative : Bool) (f : Fragment) : Except LineError (List Term) :=
  if _h : f.text = [] then .error ⟨f.column, .expectedValue⟩
  else if f.text.head? = some '-' then (f.drop 1).skipBlanks.terms (!negative)
  else if f.text.head? = some '+' then (f.drop 1).skipBlanks.terms negative
  else
    match f.term with
    | .error e => .error e
    | .ok (value, length) =>
      let term : Term := ⟨negative, f.column, value⟩
      let rest := (f.drop length).skipBlanks
      match _h : rest.text with
      | [] => .ok [term]
      | c :: _ =>
        if c = '+' ∨ c = '-' then ((rest.drop 1).skipBlanks.terms (c = '-')).map (term :: ·)
        else .error ⟨rest.column, .unexpected c⟩
termination_by f.text.length
decreasing_by
  · exact Nat.lt_of_le_of_lt (Fragment.length_skipBlanks_le _) (Fragment.length_drop_lt Nat.one_pos _h)
  · exact Nat.lt_of_le_of_lt (Fragment.length_skipBlanks_le _) (Fragment.length_drop_lt Nat.one_pos _h)
  · have hne : rest.text ≠ [] := by simp [_h]
    have hle : rest.text.length ≤ f.text.length :=
      Nat.le_trans (Fragment.length_skipBlanks_le _) (by simp [Fragment.drop])
    exact Nat.lt_of_lt_of_le (Nat.lt_of_le_of_lt (Fragment.length_skipBlanks_le _)
      (Fragment.length_drop_lt Nat.one_pos hne)) hle

namespace Expression

/-- The empty sum, which stands for an offset that is not written. -/
def zero (column : Nat) : Expression := ⟨column, []⟩

/-- The expression that a whole fragment is. -/
def parse (f : Fragment) : Except LineError Expression :=
  (f.skipBlanks.terms false).map (Expression.mk f.skipBlanks.column)

/-- The symbols of an expression with their columns, from left to right. -/
def symbols (e : Expression) : List (String × Nat) :=
  e.terms.filterMap fun t =>
    match t.value with
    | .symbol name => some (name, t.column)
    | .number _ => none

end Expression

/-! ## Evaluating -/

/-- The symbols defined so far, newest first. -/
abbrev SymbolTable := List (String × Int)

namespace SymbolTable

/-- The name of the mailbox address, which is always defined. -/
def mailboxName : String := "MAILBOX"

/-- The value of a symbol. -/
def value? (table : SymbolTable) (name : String) : Option Int :=
  match table.lookup name with
  | some v => some v
  | none => if name = mailboxName then some mailboxAddress.toNat else none

/-- Whether a symbol may not be defined any more. -/
def isTaken (table : SymbolTable) (name : String) : Bool :=
  name == mailboxName || (table.lookup name).isSome

/-- The table with new values for the symbols of some names. -/
def move (table : SymbolTable) (names : List String) (v : Int) : SymbolTable :=
  table.map fun (name, old) => (name, if name ∈ names then v else old)

end SymbolTable

/-- The value of a term without its sign. -/
def Term.magnitude (table : SymbolTable) (t : Term) : Except LineError Int :=
  match t.value with
  | .number n => .ok n
  | .symbol name =>
    match table.value? name with
    | some v => .ok v
    | none => .error ⟨t.column, .undefinedSymbol name⟩

/-- The value of a term. -/
def Term.evaluate (table : SymbolTable) (t : Term) : Except LineError Int :=
  (t.magnitude table).map fun v => if t.negative then -v else v

/-- Whether a number fits in 64 bits with a sign. -/
def fitsNumber (v : Int) : Bool :=
  -numberLimit ≤ v && v < numberLimit

/-- The sum of a start value and some terms. -/
def Expression.sum (table : SymbolTable) (column : Nat) :
    (total : Int) → List Term → Except LineError Int
  | total, [] => .ok total
  | total, t :: terms => do
    let v ← t.evaluate table
    if fitsNumber (total + v) then Expression.sum table column (total + v) terms
    else .error ⟨column, .expressionOverflows⟩

/-- The value of an expression. -/
def Expression.evaluate (table : SymbolTable) (e : Expression) : Except LineError Int :=
  Expression.sum table e.column 0 e.terms

end RobotMachine
