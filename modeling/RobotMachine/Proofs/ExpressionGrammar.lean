import Mathlib.Data.Nat.Digits.Defs
import RobotMachine.Proofs.LineHeads
import RobotMachine.Proofs.Numerals
import RobotMachine.Proofs.SameText

/-!
# The grammar of expressions

An expression is a sum of signed terms with blanks between its tokens. The grammar is written down
here on its own, by what each kind of token looks like, and the reader is shown to accept what the
grammar derives and nothing else, with the same signs and the same terms.

* `SpellsSum`: a text is written for a list of signed terms.
* `Expression.parse_of_spellsSum`: such a text is read, as these terms.
* `Expression.spellsSum_of_parse`: every text that is read is written for the terms it is read as.
-/

namespace RobotMachine

/-! ## The grammar -/

def IsGap (text : List Char) : Prop :=
  ∀ c ∈ text, isAsciiBlank c = true

/-- The characters are the digits of a radix, from the highest to the lowest. -/
def SpellsDigits (radix : Nat) (digits : List Nat) (text : List Char) : Prop :=
  List.Forall₂ (fun d c => digitValue? radix c = some d) digits text

/-- A text of one or more digits, for the number they denote in the radix. -/
def SpellsNatural (radix n : Nat) (text : List Char) : Prop :=
  text ≠ [] ∧ ∃ digits, SpellsDigits radix digits text ∧ n = Nat.ofDigits radix digits.reverse

inductive SpellsNumeral (n : Nat) : List Char → Prop
  | decimal {text : List Char} : SpellsNatural 10 n text → SpellsNumeral n text
  | hexadecimal {x : Char} {text : List Char} :
    x = 'x' ∨ x = 'X' → SpellsNatural 16 n text → SpellsNumeral n ('0' :: x :: text)
  | binary {b : Char} {text : List Char} :
    b = 'b' ∨ b = 'B' → SpellsNatural 2 n text → SpellsNumeral n ('0' :: b :: text)

/-- How a character is written between quotes. The quote and the backslash have no other spelling
than their escapes. -/
inductive SpellsCharacter (quote : Char) : Char → List Char → Prop
  | plain {c : Char} : c ≠ quote → c ≠ '\\' → SpellsCharacter quote c [c]
  | escape {c d : Char} : escaped? d = some c → SpellsCharacter quote c ['\\', d]

inductive SpellsValue : TermValue → List Char → Prop
  | character {c : Char} {text : List Char} :
    SpellsCharacter '\'' c text → SpellsValue (.number c.toNat) ('\'' :: (text ++ ['\'']))
  | numeral {n : Nat} {text : List Char} :
    SpellsNumeral n text → n < 2 ^ 63 → SpellsValue (.number n) text
  | symbol {name : List Char} : IsIdentifier name → SpellsValue (.symbol (String.ofList name)) name

/-- Signs with blanks behind each of them. It is told whether the number of minuses is odd. -/
inductive SpellsSigns : Bool → List Char → Prop
  | none : SpellsSigns false []
  | plus {odd : Bool} {gap signs : List Char} :
    IsGap gap → SpellsSigns odd signs → SpellsSigns odd ('+' :: (gap ++ signs))
  | minus {odd : Bool} {gap signs : List Char} :
    IsGap gap → SpellsSigns odd signs → SpellsSigns (!odd) ('-' :: (gap ++ signs))

/-- A value, and whether it is negated. -/
abbrev SignedValue := Bool × TermValue

/-- Signs, a term and the blanks behind it. -/
inductive SpellsTerm : SignedValue → List Char → Prop
  | mk {odd : Bool} {value : TermValue} {signs text gap : List Char} :
    SpellsSigns odd signs → SpellsValue value text → IsGap gap →
    SpellsTerm (odd, value) (signs ++ (text ++ gap))

/-- Operators, each with blanks and a term behind it. The minus that subtracts a term counts among
the signs of the term. -/
inductive SpellsOthers : List SignedValue → List Char → Prop
  | none : SpellsOthers [] []
  | plus {odd : Bool} {value : TermValue} {values : List SignedValue} {gap text rest : List Char} :
    IsGap gap → SpellsTerm (odd, value) text → SpellsOthers values rest →
    SpellsOthers ((odd, value) :: values) ('+' :: (gap ++ (text ++ rest)))
  | minus {odd : Bool} {value : TermValue} {values : List SignedValue} {gap text rest : List Char} :
    IsGap gap → SpellsTerm (odd, value) text → SpellsOthers values rest →
    SpellsOthers ((!odd, value) :: values) ('-' :: (gap ++ (text ++ rest)))

inductive SpellsSum : List SignedValue → List Char → Prop
  | mk {value : SignedValue} {values : List SignedValue} {gap text rest : List Char} :
    IsGap gap → SpellsTerm value text → SpellsOthers values rest →
    SpellsSum (value :: values) (gap ++ (text ++ rest))

/-- What a term says, without its column. -/
def Term.signed (t : Term) : SignedValue := (t.negative, t.value)

/-! ## Numerals -/

theorem le_foldl_digits {radix : Nat} (least : 1 ≤ radix) (digits : List Nat) (n : Nat) :
    n ≤ digits.foldl (fun n d => d + radix * n) n := by
  induction digits generalizing n with
  | nil => exact Nat.le_refl n
  | cons d digits ih =>
    calc n
      _ ≤ radix * n := Nat.le_mul_of_pos_left n least
      _ ≤ d + radix * n := Nat.le_add_left _ d
      _ ≤ _ := ih (d + radix * n)

/-- A number that is too large stays so with more digits behind it. -/
theorem readDigits_eq_ok_iff {radix limit n m : Nat} {text : List Char} (least : 1 ≤ radix)
    (below : n < limit) : readDigits radix limit n text = .ok m ↔
      ∃ digits, SpellsDigits radix digits text ∧
        digits.foldl (fun n d => d + radix * n) n = m ∧ m < limit := by
  induction text generalizing n with
  | nil =>
    simp only [readDigits, Except.ok.injEq, SpellsDigits, List.forall₂_nil_right_iff]
    refine ⟨fun same => ?_, fun spelled => ?_⟩
    · exact ⟨[], rfl, same, same ▸ below⟩
    · obtain ⟨_, rfl, same, -⟩ := spelled
      exact same
  | cons c text ih =>
    have split : (∃ digits, SpellsDigits radix digits (c :: text) ∧
        digits.foldl (fun n d => d + radix * n) n = m ∧ m < limit) ↔
        ∃ d, digitValue? radix c = some d ∧ ∃ digits, SpellsDigits radix digits text ∧
          digits.foldl (fun n d => d + radix * n) (d + radix * n) = m ∧ m < limit := by
      simp only [SpellsDigits, List.forall₂_cons_right_iff]
      refine ⟨fun spelled => ?_, fun spelled => ?_⟩
      · obtain ⟨_, ⟨d, digits, head, tail, rfl⟩, value⟩ := spelled
        exact ⟨d, head, digits, tail, value⟩
      · obtain ⟨d, head, digits, tail, value⟩ := spelled
        exact ⟨_, ⟨d, digits, head, tail, rfl⟩, value⟩
    rw [split, readDigits]
    cases digitValue? radix c with
    | none =>
      refine ⟨fun refused => ?_, fun spelled => ?_⟩
      · cases refused
      · obtain ⟨_, head, -⟩ := spelled
        cases head
    | some d =>
      dsimp only
      rw [Nat.mul_comm n, Nat.add_comm _ d]
      simp only [Option.some.injEq, exists_eq_left']
      split
      · next small => exact ih small
      · next large =>
        refine ⟨fun refused => ?_, fun spelled => ?_⟩
        · cases refused
        · obtain ⟨digits, -, value, fits⟩ := spelled
          have grown := le_foldl_digits least digits (d + radix * n)
          omega

theorem readNumeral_eq_ok_iff {radix limit n : Nat} {text : List Char} (least : 1 ≤ radix)
    (positive : 0 < limit) :
    readNumeral radix limit text = .ok n ↔ SpellsNatural radix n text ∧ n < limit := by
  have value (digits : List Nat) : digits.foldl (fun n d => d + radix * n) 0 =
      Nat.ofDigits radix digits.reverse := by
    rw [Nat.ofDigits_eq_foldr, List.foldr_reverse]
    rfl
  rw [readNumeral, SpellsNatural]
  split
  · next empty =>
    refine ⟨fun refused => ?_, fun spelled => absurd empty spelled.1.1⟩
    cases refused
  · next more =>
    rw [readDigits_eq_ok_iff least positive]
    refine ⟨fun spelled => ?_, fun spelled => ?_⟩
    · obtain ⟨digits, spells, same, fits⟩ := spelled
      exact ⟨⟨more, digits, spells, same.symm.trans (value digits)⟩, fits⟩
    · obtain ⟨⟨-, digits, spells, same⟩, fits⟩ := spelled
      exact ⟨digits, spells, (value digits).trans same.symm, fits⟩

theorem isDigit_of_digitValue? {c : Char} {d : Nat} (digit : digitValue? 10 c = some d) :
    c.isDigit = true := by
  cases isDigit : c.isDigit with
  | true => rfl
  | false =>
    have large : 10 ≤ if c.isLower then c.toNat - 'a'.toNat + 10
        else if c.isUpper then c.toNat - 'A'.toNat + 10 else 10 := by
      split
      · exact Nat.le_add_left 10 _
      · split
        · exact Nat.le_add_left 10 _
        · exact Nat.le_refl 10
    simp only [digitValue?, isDigit, Bool.false_eq_true, if_false,
      if_neg (Nat.not_lt.mpr large)] at digit
    cases digit

theorem SpellsNatural.forall_mem {radix n : Nat} {text : List Char}
    (spells : SpellsNatural radix n text) : ∀ c ∈ text, ∃ d, digitValue? radix c = some d := by
  obtain ⟨-, digits, spelled, -⟩ := spells
  induction spelled with
  | nil => nofun
  | cons head _ ih => exact List.forall_mem_cons.mpr ⟨⟨_, head⟩, ih⟩

/-- The radix of a numeral and its digits are told apart by the front of its text alone. -/
theorem spellsNumeral_iff {n : Nat} {text : List Char} : SpellsNumeral n text ↔
    SpellsNatural (numeralParts text).1 n (numeralParts text).2 := by
  refine ⟨fun spells => ?_, fun spells => ?_⟩
  · cases spells with
    | decimal natural =>
      have digits : ∀ c ∈ text, c.isDigit = true := fun c member =>
        let ⟨_, digit⟩ := natural.forall_mem c member
        isDigit_of_digitValue? digit
      rwa [numeralParts_of_isDigit digits]
    | hexadecimal isX natural =>
      rcases isX with rfl | rfl
      · exact natural
      · exact natural
    | binary isB natural =>
      rcases isB with rfl | rfl
      · exact natural
      · exact natural
  · rw [numeralParts.eq_def] at spells
    split at spells
    · exact .hexadecimal (.inl rfl) spells
    · exact .hexadecimal (.inr rfl) spells
    · exact .binary (.inl rfl) spells
    · exact .binary (.inr rfl) spells
    · exact .decimal spells

theorem numeralParts_radix (text : List Char) : 1 ≤ (numeralParts text).1 := by
  rw [numeralParts.eq_def]
  split
  all_goals exact Nat.succ_le_of_lt (Nat.succ_pos _)

theorem Fragment.toNumber_eq_ok_iff {f : Fragment} {n : Nat} :
    f.toNumber = .ok n ↔ SpellsNumeral n f.text ∧ n < 2 ^ 63 := by
  rw [spellsNumeral_iff, ← readNumeral_eq_ok_iff (numeralParts_radix f.text) (by decide), toNumber]
  dsimp only
  generalize readNumeral _ numberLimit _ = read
  cases read with
  | ok m =>
    exact ⟨fun same => congrArg _ (Except.ok.inj same),
      fun same => congrArg _ (Except.ok.inj same)⟩
  | error e =>
    cases e with
    | invalid => constructor <;> intro refused <;> cases refused
    | tooLarge => constructor <;> intro refused <;> cases refused

theorem isIdentifierChar_of_digitValue? {radix d : Nat} {c : Char}
    (digit : digitValue? radix c = some d) : isIdentifierChar c = true := by
  refine isIdentifierChar_of_isAlphanum ?_
  cases alphanum : c.isAlphanum with
  | true => rfl
  | false =>
    change (c.isUpper || c.isLower || c.isDigit) = false at alphanum
    simp only [Bool.or_eq_false_iff] at alphanum
    obtain ⟨⟨notUpper, notLower⟩, notDigit⟩ := alphanum
    simp only [digitValue?, notUpper, notLower, notDigit, Bool.false_eq_true, if_false,
      Nat.lt_irrefl] at digit
    cases digit

/-- A numeral starts with a digit and is one word. -/
theorem SpellsNumeral.word {n : Nat} {text : List Char} (spells : SpellsNumeral n text) :
    (∃ c more, text = c :: more ∧ c.isDigit = true) ∧ ∀ c ∈ text, isIdentifierChar c = true := by
  have goesOn {radix : Nat} {digits : List Char} (natural : SpellsNatural radix n digits) :
      ∀ c ∈ digits, isIdentifierChar c = true := fun c member =>
    let ⟨_, digit⟩ := natural.forall_mem c member
    isIdentifierChar_of_digitValue? digit
  cases spells with
  | decimal natural =>
    obtain ⟨c, more, rfl⟩ := List.exists_cons_of_ne_nil natural.1
    obtain ⟨d, digit⟩ := natural.forall_mem c List.mem_cons_self
    exact ⟨⟨c, more, rfl, isDigit_of_digitValue? digit⟩, goesOn natural⟩
  | hexadecimal isX natural =>
    refine ⟨⟨_, _, rfl, rfl⟩, List.forall_mem_cons.mpr ⟨rfl, List.forall_mem_cons.mpr ⟨?_, ?_⟩⟩⟩
    · rcases isX with rfl | rfl <;> rfl
    · exact goesOn natural
  | binary isB natural =>
    refine ⟨⟨_, _, rfl, rfl⟩, List.forall_mem_cons.mpr ⟨rfl, List.forall_mem_cons.mpr ⟨?_, ?_⟩⟩⟩
    · rcases isB with rfl | rfl <;> rfl
    · exact goesOn natural

/-! ## Terms -/

namespace Fragment

theorem characterLiteral_of_spells {c : Char} {text : List Char}
    (spells : SpellsCharacter '\'' c text) (column : Nat) (rest : List Char) :
    characterLiteral ⟨column, '\'' :: (text ++ '\'' :: rest)⟩ = .ok (c, text.length + 2) := by
  cases spells with
  | plain notQuote notBackslash =>
    rw [characterLiteral.eq_def]
    dsimp only [List.drop_succ_cons, List.drop_zero, List.singleton_append]
    split
    · next none => cases none
    · next quote => exact absurd (List.cons.inj quote).1 notQuote
    · next backslash => exact absurd (List.cons.inj backslash).1 notBackslash
    · next same =>
      cases same
      rfl
  | escape known =>
    simp only [characterLiteral, List.drop_succ_cons, List.drop_zero, List.cons_append,
      List.head?_cons, Option.bind_some, known]
    rfl

theorem spellsCharacter_of_characterLiteral {f : Fragment} {c : Char} {n : Nat}
    {text : List Char} (quoted : f.text = '\'' :: text) (read : f.characterLiteral = .ok (c, n)) :
    ∃ spelling rest, text = spelling ++ '\'' :: rest ∧ SpellsCharacter '\'' c spelling ∧
      n = spelling.length + 2 := by
  rw [characterLiteral, quoted, List.drop_succ_cons, List.drop_zero] at read
  split at read
  · cases read
  · cases read
  · next behind =>
    split at read
    · cases read
    · next known =>
      obtain ⟨d, head, known⟩ := Option.bind_eq_some_iff.mp known
      split at read
      · next closes =>
        cases read
        obtain ⟨behind, rfl⟩ := List.head?_eq_some_iff.mp head
        obtain ⟨rest, rfl⟩ := List.head?_eq_some_iff.mp (List.head?_eq_getElem?.trans closes)
        exact ⟨['\\', d], rest, rfl, .escape known, rfl⟩
      · cases read
  · next d behind notQuote notBackslash =>
    split at read
    · next closes =>
      cases read
      obtain ⟨rest, rfl⟩ := List.head?_eq_some_iff.mp closes
      exact ⟨[c], rest, rfl, .plain notQuote notBackslash, rfl⟩
    · cases read

section

variable {value : TermValue} {text : List Char}

/-- A term is read off a text as far as it goes. What follows must not go on with the word. -/
theorem term_of_spellsValue (spells : SpellsValue value text) {rest : List Char}
    (stops : ∀ c ∈ rest.head?, isIdentifierChar c = false) (column : Nat) :
    term ⟨column, text ++ rest⟩ = .ok (value, text.length) := by
  have cut (word : ∀ c ∈ text, isIdentifierChar c = true) :
      takeWhile ⟨column, text ++ rest⟩ isIdentifierChar = ⟨column, text⟩ := by
    rw [takeWhile, List.takeWhile_append_of_pos word,
      (takeWhile_isIdentifierChar_of_stops stops).1, List.append_nil]
  cases spells with
  | character spells =>
    have read := characterLiteral_of_spells spells column rest
    rw [List.cons_append, List.append_assoc, List.singleton_append, term]
    dsimp only
    rw [if_pos rfl, read, List.length_cons, List.length_append]
    rfl
  | numeral spells small =>
    obtain ⟨⟨c, more, rfl, digit⟩, word⟩ := spells.word
    have number : toNumber ⟨column, c :: more⟩ = .ok _ := toNumber_eq_ok_iff.mpr ⟨spells, small⟩
    rw [term, cut word]
    simp only [List.cons_append, if_neg (of_isDigit digit).2.2.2, if_pos digit, number]
    rfl
  | symbol identifier =>
    obtain ⟨c, more, rfl, starts⟩ := identifier.starts
    have notDigit : ¬c.isDigit = true := by
      rw [isDigit_iff_toNat]
      have range := isIdentifierStart_iff_toNat.mp starts
      omega
    have notQuote : c ≠ '\'' := ne_of_holds starts rfl
    rw [term, cut identifier.goesOn]
    simp only [List.cons_append, if_neg notQuote, if_neg notDigit, if_pos starts]
    rfl

theorem spellsValue_of_term {f : Fragment} {n : Nat} (read : f.term = .ok (value, n)) :
    ∃ text rest, f.text = text ++ rest ∧ SpellsValue value text ∧ n = text.length := by
  have word : f.text = (f.takeWhile isIdentifierChar).text ++
      (f.dropWhile isIdentifierChar).text := List.takeWhile_append_dropWhile.symm
  rw [term.eq_def] at read
  split at read
  · cases read
  · next c more split =>
    dsimp only at read
    split at read
    · next quote =>
      subst quote
      obtain ⟨⟨d, size⟩, literal, same⟩ := Except.map_eq_ok_iff.mp read
      cases same
      obtain ⟨spelling, rest, rfl, spells, rfl⟩ := spellsCharacter_of_characterLiteral split literal
      refine ⟨'\'' :: (spelling ++ ['\'']), rest, ?_, .character spells, ?_⟩
      · rw [split, List.cons_append, List.append_assoc, List.singleton_append]
      · rw [List.length_cons, List.length_append, List.length_singleton]
    split at read
    · obtain ⟨_, number, same⟩ := Except.map_eq_ok_iff.mp read
      cases same
      obtain ⟨_, numeral, same⟩ := Except.bind_eq_ok_iff.mp number
      cases same
      obtain ⟨spells, small⟩ := toNumber_eq_ok_iff.mp numeral
      exact ⟨_, _, word, .numeral spells small, rfl⟩
    split at read
    · next starts =>
      cases read
      have goesOn : isIdentifierChar c = true := isIdentifierChar_iff.mpr (.inl starts)
      refine ⟨_, _, word, .symbol ⟨⟨c, more.takeWhile isIdentifierChar, ?_, starts⟩, ?_⟩, rfl⟩
      · rw [takeWhile, split, List.takeWhile_cons_of_pos goesOn]
      · exact fun d member => List.mem_takeWhile_imp member
    · cases read

end

end Fragment

/-! ## Sums -/

section Starts

/-- A text starts with no blank. -/
def IsVisible (text : List Char) : Prop :=
  ∀ c ∈ text.head?, isAsciiBlank c = false

theorem IsVisible.append {text : List Char} (visible : IsVisible text) {rest : List Char}
    (next : text = [] → IsVisible rest) : IsVisible (text ++ rest) := by
  cases text with
  | nil => exact next rfl
  | cons c text => exact visible

theorem Fragment.skipBlanks_gap {gap text : List Char} (isGap : IsGap gap)
    (visible : IsVisible text) (column : Nat) :
    skipBlanks ⟨column, gap ++ text⟩ = ⟨column + utf8Length gap, text⟩ := by
  rw [skipBlanks_append isGap]
  cases text with
  | nil => rfl
  | cons c text => exact skipBlanks_cons (visible c rfl)

/-- A term starts with no blank and no sign, and there is something of it. -/
theorem SpellsValue.head {value : TermValue} {text : List Char} (spells : SpellsValue value text) :
    ∃ c more, text = c :: more ∧ isAsciiBlank c = false ∧ c ≠ '-' ∧ c ≠ '+' := by
  cases spells with
  | character => exact ⟨_, _, rfl, rfl, by decide, by decide⟩
  | numeral spells =>
    obtain ⟨⟨c, more, same, digit⟩, -⟩ := spells.word
    obtain ⟨blank, minus, plus, -⟩ := of_isDigit digit
    exact ⟨c, more, same, blank, minus, plus⟩
  | symbol identifier =>
    obtain ⟨c, more, same, starts⟩ := identifier.starts
    refine ⟨c, more, same, ?_, ne_of_holds starts rfl, ne_of_holds starts rfl⟩
    cases blank : isAsciiBlank c with
    | false => rfl
    | true =>
      have goesOn := isIdentifierChar_of_isAsciiBlank blank
      rw [isIdentifierChar_iff.mpr (.inl starts)] at goesOn
      cases goesOn

theorem SpellsSigns.isVisible {odd : Bool} {signs : List Char} (spells : SpellsSigns odd signs) :
    IsVisible signs := by
  cases spells with
  | none => nofun
  | plus | minus =>
    rintro c ⟨⟩
    rfl

theorem SpellsTerm.isVisible {value : SignedValue} {text : List Char}
    (spells : SpellsTerm value text) (rest : List Char) : IsVisible (text ++ rest) := by
  cases spells with
  | mk signs spells gap =>
    obtain ⟨c, more, rfl, visible, -⟩ := spells.head
    rw [List.append_assoc]
    refine signs.isVisible.append fun _ => ?_
    rintro d ⟨⟩
    exact visible

section

variable {value : SignedValue} {gap text : List Char} (isGap : IsGap gap)
  (spells : SpellsTerm value text)

include isGap spells

theorem SpellsTerm.plus : SpellsTerm value ('+' :: (gap ++ text)) := by
  cases spells with
  | mk signs spelled last =>
    rw [← List.append_assoc, ← List.cons_append]
    exact .mk (.plus isGap signs) spelled last

theorem SpellsTerm.minus : SpellsTerm (!value.1, value.2) ('-' :: (gap ++ text)) := by
  cases spells with
  | mk signs spelled last =>
    rw [← List.append_assoc, ← List.cons_append]
    exact .mk (.minus isGap signs) spelled last

end

/-- What follows a term and its blanks is nothing or an operator. -/
theorem SpellsOthers.head {values : List SignedValue} {rest : List Char}
    (spells : SpellsOthers values rest) : ∀ c ∈ rest.head?, c = '+' ∨ c = '-' := by
  cases spells with
  | none => nofun
  | plus =>
    rintro c ⟨⟩
    exact .inl rfl
  | minus =>
    rintro c ⟨⟩
    exact .inr rfl

theorem SpellsOthers.isVisible {values : List SignedValue} {rest : List Char}
    (spells : SpellsOthers values rest) : IsVisible rest := by
  intro c first
  rcases spells.head c first with rfl | rfl <;> rfl

/-- A word ends at blanks and at operators. -/
theorem SpellsOthers.stops {values : List SignedValue} {gap rest : List Char}
    (spells : SpellsOthers values rest) (isGap : IsGap gap) :
    ∀ c ∈ (gap ++ rest).head?, isIdentifierChar c = false := by
  cases gap with
  | nil =>
    intro c first
    rcases spells.head c first with rfl | rfl <;> rfl
  | cons blank gap =>
    rintro _ ⟨⟩
    exact isIdentifierChar_of_isAsciiBlank (isGap blank List.mem_cons_self)

end Starts

namespace Fragment

/-! ### Texts that are read -/

theorem terms_plus (negative : Bool) (column : Nat) (text : List Char) :
    terms negative ⟨column, '+' :: text⟩ = terms negative (skipBlanks ⟨column + 1, text⟩) := by
  rw [terms_eq]
  rfl

theorem terms_minus (negative : Bool) (column : Nat) (text : List Char) :
    terms negative ⟨column, '-' :: text⟩ = terms (!negative) (skipBlanks ⟨column + 1, text⟩) := by
  rw [terms_eq]
  rfl

theorem terms_of_signs {odd : Bool} {signs : List Char} (spells : SpellsSigns odd signs)
    {rest : List Char} (visible : IsVisible rest) (negative : Bool) (column : Nat) :
    ∃ column', terms negative ⟨column, signs ++ rest⟩ =
      terms (negative ^^ odd) ⟨column', rest⟩ := by
  induction spells generalizing negative column with
  | none => exact ⟨column, by rw [Bool.xor_false, List.nil_append]⟩
  | plus isGap spells ih =>
    have starts := spells.isVisible.append fun _ => visible
    rw [List.cons_append, List.append_assoc, terms_plus, skipBlanks_gap isGap starts]
    exact ih negative _
  | minus isGap spells ih =>
    have starts := spells.isVisible.append fun _ => visible
    rw [List.cons_append, List.append_assoc, terms_minus, skipBlanks_gap isGap starts,
      Bool.xor_not, ← Bool.not_xor]
    exact ih (!negative) _

theorem terms_of_spellsValue {value : TermValue} {text gap rest : List Char}
    {values : List SignedValue} (spells : SpellsValue value text) (isGap : IsGap gap)
    (others : SpellsOthers values rest) (negative : Bool) (column : Nat) :
    ∃ behind, terms negative ⟨column, text ++ (gap ++ rest)⟩ =
      match rest with
      | [] => .ok [⟨negative, column, value⟩]
      | c :: more =>
        ((skipBlanks ⟨behind, more⟩).terms (c = '-')).map (⟨negative, column, value⟩ :: ·) := by
  have read := term_of_spellsValue spells (others.stops isGap) column
  have left : (drop ⟨column, text ++ (gap ++ rest)⟩ text.length).skipBlanks =
      ⟨column + utf8Length text + utf8Length gap, rest⟩ := by
    rw [← skipBlanks_gap isGap others.isVisible, drop, List.take_left, List.drop_left]
  obtain ⟨c, more, rfl, -, notMinus, notPlus⟩ := spells.head
  have noMinus : ¬((c :: more) ++ (gap ++ rest)).head? = some '-' := mt Option.some.inj notMinus
  have noPlus : ¬((c :: more) ++ (gap ++ rest)).head? = some '+' := mt Option.some.inj notPlus
  refine ⟨column + utf8Length (c :: more) + utf8Length gap + 1, ?_⟩
  rw [terms_eq, if_neg (by exact List.cons_ne_nil _ _), if_neg noMinus, if_neg noPlus, read,
    Except.ok_bind]
  dsimp only
  rw [left]
  cases rest with
  | nil => rfl
  | cons d rest =>
    have operator : d = '+' ∨ d = '-' := others.head d rfl
    dsimp only
    rw [if_pos operator]
    rcases operator with rfl | rfl <;> rfl

/-- The first term is read, and what follows it is left to be read. -/
theorem terms_of_spellsTerm {value : SignedValue} {text rest : List Char}
    {values : List SignedValue} (spells : SpellsTerm value text) (others : SpellsOthers values rest)
    (negative : Bool) (column : Nat) :
    ∃ t behind, t.signed = (negative ^^ value.1, value.2) ∧
      terms negative ⟨column, text ++ rest⟩ =
        match rest with
        | [] => .ok [t]
        | c :: more => ((skipBlanks ⟨behind, more⟩).terms (c = '-')).map (t :: ·) := by
  cases spells with
  | @mk odd value signs text gap spelledSigns spelled isGap =>
    have starts : IsVisible (text ++ (gap ++ rest)) := by
      obtain ⟨c, more, rfl, visible, -⟩ := spelled.head
      rintro d ⟨⟩
      exact visible
    obtain ⟨place, passed⟩ := terms_of_signs spelledSigns starts negative column
    obtain ⟨behind, read⟩ := terms_of_spellsValue spelled isGap others (negative ^^ odd) place
    refine ⟨⟨negative ^^ odd, place, value⟩, behind, rfl, ?_⟩
    rw [List.append_assoc, List.append_assoc, passed, read]

theorem terms_of_spells {value : SignedValue} {values : List SignedValue} {text rest : List Char}
    (spells : SpellsTerm value text) (others : SpellsOthers values rest) (negative : Bool)
    (column : Nat) : ∃ ts, terms negative ⟨column, text ++ rest⟩ = .ok ts ∧
      ts.map Term.signed = (negative ^^ value.1, value.2) :: values := by
  induction others generalizing value text negative column with
  | none =>
    obtain ⟨t, _, signed, read⟩ := terms_of_spellsTerm spells SpellsOthers.none negative column
    exact ⟨[t], read, congrArg (fun value => [value]) signed⟩
  | @plus odd next values gap more rest isGap spelled others ih =>
    obtain ⟨t, behind, signed, read⟩ :=
      terms_of_spellsTerm spells (.plus isGap spelled others) negative column
    obtain ⟨ts, readRest, signedRest⟩ := ih spelled false (behind + utf8Length gap)
    refine ⟨t :: ts, ?_, ?_⟩
    · rw [read]
      dsimp only
      rw [skipBlanks_gap isGap (spelled.isVisible rest), decide_eq_false (by decide), readRest]
      rfl
    · rw [List.map_cons, signed, signedRest, Bool.false_xor]
  | @minus odd next values gap more rest isGap spelled others ih =>
    obtain ⟨t, behind, signed, read⟩ :=
      terms_of_spellsTerm spells (.minus isGap spelled others) negative column
    obtain ⟨ts, readRest, signedRest⟩ := ih spelled true (behind + utf8Length gap)
    refine ⟨t :: ts, ?_, ?_⟩
    · rw [read]
      dsimp only
      rw [skipBlanks_gap isGap (spelled.isVisible rest), decide_eq_true rfl, readRest]
      rfl
    · rw [List.map_cons, signed, signedRest, Bool.true_xor]

/-! ### What a text that is read says -/

/-- A term that is read, the blanks behind it and what is left. -/
theorem exists_gap_of_term {f : Fragment} {value : TermValue} {n : Nat}
    (read : f.term = .ok (value, n)) : ∃ text gap, SpellsValue value text ∧ IsGap gap ∧
      f.text = text ++ (gap ++ (f.drop n).skipBlanks.text) := by
  obtain ⟨text, rest, split, spells, rfl⟩ := spellsValue_of_term read
  obtain ⟨gap, isGap, behind⟩ := (f.drop text.length).exists_blanks
  have left : (f.drop text.length).text = rest := by
    rw [drop, split]
    exact List.drop_left
  refine ⟨text, gap, spells, isGap, ?_⟩
  rw [← behind, left, split]

theorem exists_spells_of_terms {f : Fragment} {negative : Bool} {ts : List Term} :
    f.terms negative = .ok ts → ∃ value values text rest, f.text = text ++ rest ∧
      SpellsTerm value text ∧ SpellsOthers values rest ∧
      ts.map Term.signed = (negative ^^ value.1, value.2) :: values := by
  -- the reader's own recursion: a sign goes in front of the signs of the first term, and a term
  -- with an operator behind it goes in front of the others
  fun_induction Fragment.terms negative f generalizing ts
  case case1 => rintro ⟨⟩
  case case2 negative f more minus ih =>
    intro read
    obtain ⟨value, values, text, rest, split, spells, others, signed⟩ := ih read
    obtain ⟨gap, isGap, behind⟩ := (f.drop 1).exists_blanks
    obtain ⟨tail, cut⟩ := List.head?_eq_some_iff.mp minus
    refine ⟨_, values, _, rest, ?_, spells.minus isGap, others, ?_⟩
    · rw [List.cons_append, List.append_assoc, ← split, ← behind, drop, cut]
      rfl
    · rw [signed, Bool.xor_not, Bool.not_xor]
  case case3 negative f more minus plus ih =>
    intro read
    obtain ⟨value, values, text, rest, split, spells, others, signed⟩ := ih read
    obtain ⟨gap, isGap, behind⟩ := (f.drop 1).exists_blanks
    obtain ⟨tail, cut⟩ := List.head?_eq_some_iff.mp plus
    refine ⟨_, values, _, rest, ?_, spells.plus isGap, others, signed⟩
    rw [List.cons_append, List.append_assoc, ← split, ← behind, drop, cut]
    rfl
  case case4 => rintro ⟨⟩
  case case5 negative f more minus plus value n read term left empty =>
    rintro ⟨⟩
    obtain ⟨text, gap, spells, isGap, split⟩ := exists_gap_of_term read
    have behind : (f.drop n).skipBlanks.text = [] := empty
    refine ⟨_, [], _, [], ?_, .mk .none spells isGap, .none, ?_⟩
    · rw [split, behind, List.append_nil, List.append_nil, List.nil_append]
    · rw [Bool.xor_false]
      rfl
  case case6 negative f more minus plus value n read term left c tail cut operator ih =>
    intro listed
    obtain ⟨ts, readRest, rfl⟩ := Except.map_eq_ok_iff.mp listed
    obtain ⟨text, gap, spells, isGap, split⟩ := exists_gap_of_term read
    obtain ⟨next, values, text', rest, splitRest, spellsNext, others, signed⟩ := ih readRest
    obtain ⟨gap', isGap', behind⟩ := (left.drop 1).exists_blanks
    have cutRest : (f.drop n).skipBlanks.text = c :: (gap' ++ (text' ++ rest)) := by
      rw [← splitRest, ← behind]
      exact cut.trans (by rw [drop, cut]; rfl)
    rw [cutRest] at split
    rcases operator with rfl | rfl
    · refine ⟨_, _, _, _, ?_, .mk .none spells isGap, .plus isGap' spellsNext others, ?_⟩
      · rw [split, List.nil_append, List.append_assoc]
      · rw [List.map_cons, signed, decide_eq_false (by decide), Bool.false_xor, Bool.xor_false]
        rfl
    · refine ⟨_, _, _, _, ?_, .mk .none spells isGap, .minus isGap' spellsNext others, ?_⟩
      · rw [split, List.nil_append, List.append_assoc]
      · rw [List.map_cons, signed, decide_eq_true rfl, Bool.true_xor, Bool.xor_false]
        rfl
  case case7 => rintro ⟨⟩

end Fragment

namespace Expression

/-- What the grammar derives is read, with the signs and the terms of the derivation. -/
theorem parse_of_spellsSum {f : Fragment} {values : List SignedValue}
    (spells : SpellsSum values f.text) :
    ∃ e, parse f = .ok e ∧ e.terms.map Term.signed = values := by
  obtain ⟨column, whole⟩ := f
  cases spells with
  | @mk value values gap text rest isGap spells others =>
    have start := Fragment.skipBlanks_gap isGap (spells.isVisible rest) column
    obtain ⟨ts, read, signed⟩ :=
      Fragment.terms_of_spells spells others false (column + utf8Length gap)
    refine ⟨⟨column + utf8Length gap, ts⟩, ?_, ?_⟩
    · change parse ⟨column, gap ++ (text ++ rest)⟩ = _
      rw [parse, start, read]
      rfl
    · rw [signed, Bool.false_xor]

/-- What is read is derived by the grammar. -/
theorem spellsSum_of_parse {f : Fragment} {e : Expression} (read : parse f = .ok e) :
    SpellsSum (e.terms.map Term.signed) f.text := by
  obtain ⟨ts, readTerms, rfl⟩ := Except.map_eq_ok_iff.mp read
  obtain ⟨value, values, text, rest, split, spells, others, signed⟩ :=
    Fragment.exists_spells_of_terms readTerms
  obtain ⟨gap, isGap, whole⟩ := f.exists_blanks
  rw [signed, Bool.false_xor, whole, split]
  exact .mk isGap spells others

/-- A text is written for one sum at most. -/
theorem eq_of_spellsSum {text : List Char} {values values' : List SignedValue}
    (spells : SpellsSum values text) (spells' : SpellsSum values' text) : values = values' := by
  obtain ⟨e, read, rfl⟩ := parse_of_spellsSum (f := ⟨1, text⟩) spells
  obtain ⟨e', read', rfl⟩ := parse_of_spellsSum (f := ⟨1, text⟩) spells'
  cases read.symm.trans read'
  rfl

end Expression

end RobotMachine
