import RobotMachine.Assembly.Expression
import RobotMachine.Proofs.LineScan

/-!
# Reading expressions in place

An expression alternates between terms and the operators between them. The reader moves its index
behind each of them and over the blanks that follow. A character literal is measured in bytes, since
its character may take several.

* `Fragment.characterInPlace_eq`: the number of bytes of a character literal.
* `TermWalk.loop_terms`, `Expression.parseInPlace_eq`: on every text the reader ends, and it reads
  what `Expression.parse` reads.
-/

namespace RobotMachine

/-! ## Characters -/

/-- The characters of a text with the indices of their first bytes. -/
def charIndices (i : Nat) : List Char → List (Nat × Char)
  | [] => []
  | c :: text => (i, c) :: charIndices (i + c.utf8Size) text

namespace Fragment

/-- The character and the number of bytes of a literal that must be closed next. -/
def closeCharacter (f : Fragment) (c : Char) : List (Nat × Char) → Except LineError (Char × Nat)
  | (i, '\'') :: _ => .ok (c, i + 1)
  | _ => .error ⟨f.column, .unclosedCharacter⟩

/-- `Fragment.characterLiteral` with the number of bytes. -/
def characterInPlace (f : Fragment) : Except LineError (Char × Nat) :=
  match (charIndices 0 f.text).drop 1 with
  | [] | (_, '\'') :: _ => .error ⟨f.column, .emptyCharacter⟩
  | (_, '\\') :: rest =>
    match rest.head?.bind fun (_, c) => escaped? c with
    | none => .error ⟨f.column, .unknownEscape⟩
    | some c => f.closeCharacter c (rest.drop 1)
  | (_, c) :: rest => f.closeCharacter c rest

theorem closeCharacter_eq (f : Fragment) (c : Char) (i : Nat) (text : List Char) :
    f.closeCharacter c (charIndices i text) =
      if text.head? = some '\'' then .ok (c, i + 1) else .error ⟨f.column, .unclosedCharacter⟩ := by
  cases text with
  | nil => rfl
  | cons closing text =>
    by_cases closes : closing = '\''
    · subst closes
      rfl
    · have other : ¬ (closing :: text).head? = some '\'' := mt Option.some.inj closes
      rw [if_neg other, charIndices, closeCharacter]
      rintro _ _ ⟨⟩
      exact closes rfl

theorem utf8Size_of_quote : Char.utf8Size '\'' = 1 := by
  decide

section Character

variable {column : Nat} {opening c : Char} {text : List Char}

theorem characterInPlace_escaped :
    characterInPlace ⟨column, opening :: '\\' :: c :: text⟩ =
      (characterLiteral ⟨column, opening :: '\\' :: c :: text⟩).map fun (e, n) =>
        (e, utf8Length ((opening :: '\\' :: c :: text).take n)) := by
  simp only [characterInPlace, characterLiteral, charIndices, List.drop_succ_cons, List.drop_zero,
    List.head?_cons, Option.bind_some, List.getElem?_cons_succ, ← List.head?_eq_getElem?]
  cases escaped? c with
  | none => rfl
  | some e =>
    simp only [closeCharacter_eq]
    split
    · next closes =>
      obtain ⟨text, rfl⟩ := List.head?_eq_some_iff.mp closes
      simp only [Except.ok_map, List.take_succ_cons, List.take_zero, utf8Length,
        utf8Size_of_quote, Nat.zero_add, Nat.add_assoc]
    · rfl

theorem characterInPlace_plain (quote : c ≠ '\'') (backslash : c ≠ '\\') :
    characterInPlace ⟨column, opening :: c :: text⟩ =
      (characterLiteral ⟨column, opening :: c :: text⟩).map fun (e, n) =>
        (e, utf8Length ((opening :: c :: text).take n)) := by
  simp only [characterInPlace, characterLiteral, charIndices, List.drop_succ_cons, List.drop_zero,
    closeCharacter_eq]
  split
  · next closes =>
    obtain ⟨text, rfl⟩ := List.head?_eq_some_iff.mp closes
    simp only [Except.ok_map, List.take_succ_cons, List.take_zero, utf8Length, utf8Size_of_quote,
      Nat.zero_add, Nat.add_assoc]
  · rfl

end Character

/-- The byte behind a character literal is the one behind its last character. -/
theorem characterInPlace_eq (f : Fragment) :
    f.characterInPlace = f.characterLiteral.map fun (c, n) => (c, utf8Length (f.text.take n)) := by
  obtain ⟨column, text⟩ := f
  match text with
  | [] | [_] => rfl
  | _ :: c :: text =>
    by_cases quote : c = '\''
    · subst quote
      rfl
    by_cases backslash : c = '\\'
    · subst backslash
      cases text with
      | nil => rfl
      | cons c text => exact characterInPlace_escaped
    · exact characterInPlace_plain quote backslash

end Fragment

/-! ## Terms -/

/-- `Fragment.term` in place: the term at an index, and the index behind it. -/
def Fragment.termAt (f : Fragment) (i : Nat) : Checked LineError (TermValue × Nat) := do
  let b ← f.byteIn i
  if b = '\'' then
    let literal ← f.cutFrom i
    let (c, length) ← checked literal.characterInPlace
    return (.number c.toNat, i + length)
  else if b.isDigit then
    let stop ← f.runEnd isIdentifierChar i
    let word ← f.cut i stop
    let n ← checked word.toNumber
    return (.number n, stop)
  else if isIdentifierStart b then
    let stop ← f.runEnd isIdentifierChar i
    let word ← f.cut i stop
    return (.symbol word.toString, stop)
  else
    f.unexpected i

section Terms

variable {f back : Fragment} {i : Nat}

/-- A character literal takes at least one character. -/
theorem length_of_characterLiteral {c : Char} {n : Nat}
    (read : back.characterLiteral = .ok (c, n)) : 0 < n := by
  rw [Fragment.characterLiteral] at read
  split at read
  · cases read
  · cases read
  · split at read
    · cases read
    · split at read
      · cases read
        decide
      · cases read
  · split at read
    · cases read
      decide
    · cases read

theorem take_takeWhile (p : Char → Bool) (text : List Char) :
    text.take (text.takeWhile p).length = text.takeWhile p :=
  (List.prefix_iff_eq_take.mp (List.takeWhile_prefix p)).symm

theorem Fragment.drop_takeWhile (f : Fragment) (p : Char → Bool) :
    f.drop (f.takeWhile p).text.length = f.dropWhile p := by
  rw [drop, dropWhile, takeWhile, take_takeWhile, Fragment.mk.injEq]
  refine ⟨rfl, ?_⟩
  calc f.text.drop (f.text.takeWhile p).length
    _ = (f.text.takeWhile p ++ f.text.dropWhile p).drop (f.text.takeWhile p).length := by
      rw [List.takeWhile_append_dropWhile]
    _ = f.text.dropWhile p := List.drop_left

theorem isIdentifierChar_of_isDigit {c : Char} (digit : c.isDigit = true) :
    isIdentifierChar c = true := by
  rw [isIdentifierChar, Char.isAlphanum, digit, Bool.or_true, Bool.true_or, Bool.true_or]

/-- A term is read off at the index, or what stands there is refused. -/
theorem termAt_cases (leaves : f.Leaves i back) (more : back.text ≠ []) :
    (∃ e, back.term = .error e ∧ f.termAt i = .error (.refused e)) ∨
      ∃ value n stop, back.term = .ok (value, n) ∧ f.termAt i = .ok (value, stop) ∧ i < stop ∧
        f.Leaves stop (back.drop n) := by
  obtain ⟨c, text, split⟩ := List.exists_cons_of_ne_nil more
  have head : back.text.head? = some c := congrArg List.head? split
  obtain ⟨b, found, same⟩ := leaves.byteIn_head (ε := LineError) head
  have stop := leaves.runEnd_eq (ε := LineError) asciiOnly_isIdentifierChar
  have cut := leaves.cut_takeWhile (ε := LineError) isIdentifierChar
  have behind := leaves.dropWhile isIdentifierChar
  rw [← back.drop_takeWhile] at behind
  have further (word : isIdentifierChar c = true) :
      i < i + utf8Length (back.text.takeWhile isIdentifierChar) := by
    rw [split, List.takeWhile_cons_of_pos word]
    exact Nat.lt_add_of_pos_right (utf8Length_pos (List.cons_ne_nil _ _))
  rw [Fragment.termAt, found, Except.ok_bind, Fragment.term, split,
    asciiOnly_isDigit.eq_of_sameAscii same, asciiOnly_isIdentifierStart.eq_of_sameAscii same]
  simp only [same.eq_iff (k := '\'') (by decide)]
  by_cases quote : c = '\''
  · simp only [if_pos quote]
    rw [leaves.cutFrom_eq, Except.ok_bind, back.characterInPlace_eq]
    cases read : back.characterLiteral with
    | error e => exact .inl ⟨e, rfl, rfl⟩
    | ok literal =>
      obtain ⟨e, n⟩ := literal
      refine .inr ⟨_, _, _, rfl, rfl, Nat.lt_add_of_pos_right (utf8Length_pos ?_), leaves.drop n⟩
      rw [ne_eq, List.take_eq_nil_iff, not_or]
      exact ⟨Nat.ne_of_gt (length_of_characterLiteral read), more⟩
  simp only [if_neg quote]
  by_cases digit : c.isDigit = true
  · simp only [if_pos digit]
    rw [stop, Except.ok_bind, cut, Except.ok_bind]
    cases (back.takeWhile isIdentifierChar).toNumber with
    | error e => exact .inl ⟨e, rfl, rfl⟩
    | ok n => exact .inr ⟨_, _, _, rfl, rfl, further (isIdentifierChar_of_isDigit digit), behind⟩
  simp only [if_neg digit]
  by_cases starts : isIdentifierStart c = true
  · simp only [if_pos starts]
    rw [stop, Except.ok_bind, cut, Except.ok_bind]
    exact .inr ⟨_, _, _, rfl, rfl, further (isIdentifierChar_of_start starts), behind⟩
  · simp only [if_neg starts]
    exact .inl ⟨_, rfl, leaves.unexpected_eq head⟩

end Terms

/-! ## Expressions -/

/-- A place in an expression: the terms so far, the newest first, the sign for the next term,
whether a term must come next, and the index. -/
structure TermWalk where
  terms : List Term
  negative : Bool
  expectsTerm : Bool
  index : Nat

namespace TermWalk

/-- Passes a sign or a term. -/
def passTerm (f : Fragment) (w : TermWalk) : Checked LineError TermWalk := do
  let b ← f.byteIn w.index
  if b = '-' then return { w with negative := !w.negative, index := w.index + 1 }
  else if b = '+' then return { w with index := w.index + 1 }
  else
    let (value, stop) ← f.termAt w.index
    return ⟨⟨w.negative, f.column + w.index, value⟩ :: w.terms, false, false, stop⟩

/-- Passes an operator. -/
def passOperator (f : Fragment) (w : TermWalk) : Checked LineError TermWalk := do
  let b ← f.byteIn w.index
  if b = '+' then return { w with expectsTerm := true, index := w.index + 1 }
  else if b = '-' then return { w with expectsTerm := true, negative := true, index := w.index + 1 }
  else f.unexpected w.index

def pass (f : Fragment) (w : TermWalk) : Checked LineError TermWalk :=
  if w.expectsTerm then w.passTerm f else w.passOperator f

def step (f : Fragment) (w : TermWalk) : Checked LineError (TermWalk ⊕ List Term) :=
  if w.index < f.bytes.length then do
    let next ← w.pass f
    let i ← f.runEnd isAsciiBlank next.index
    return .inl { next with index := i }
  else if w.expectsTerm then
    .error (.refused ⟨f.column + w.index, .expectedValue⟩)
  else
    .ok (.inr w.terms.reverse)

variable {f back rest : Fragment} {w next : TermWalk} {budget : Nat}

/-! One step on what is left behind the index. -/

theorem loop_pass (leaves : f.Leaves w.index back) (more : back.text ≠ [])
    (room : utf8Length back.text < budget) (passed : w.pass f = .ok next)
    (further : w.index < next.index) (behind : f.Leaves next.index rest) :
    ∃ j left, f.Leaves j rest.skipBlanks ∧ utf8Length rest.skipBlanks.text < left ∧
      loop (step f) budget w = loop (step f) left { next with index := j } := by
  obtain ⟨left, rfl⟩ : ∃ n, budget = n + 1 := ⟨budget - 1, by omega⟩
  obtain ⟨j, blanks, end_eq, behind⟩ := behind.exists_blanksEnd (ε := LineError)
  have less := leaves.utf8Length_lt behind (Nat.lt_of_lt_of_le further blanks)
  refine ⟨j, left, behind, by omega, loop_next ?_ left⟩
  rw [step, if_pos (leaves.lt_length_iff.mpr more), passed, Except.ok_bind, end_eq]
  rfl

theorem loop_refused (leaves : f.Leaves w.index back) (more : back.text ≠ [])
    (room : utf8Length back.text < budget) {e : Stop LineError} (refused : w.pass f = .error e) :
    loop (step f) budget w = .error e := by
  obtain ⟨left, rfl⟩ : ∃ n, budget = n + 1 := ⟨budget - 1, by omega⟩
  refine loop_stop ?_ left
  rw [step, if_pos (leaves.lt_length_iff.mpr more), refused]
  rfl

theorem loop_end (leaves : f.Leaves w.index back) (empty : back.text = [])
    (room : utf8Length back.text < budget) :
    loop (step f) budget w =
      if w.expectsTerm then .error (.refused ⟨back.column, .expectedValue⟩)
      else .ok w.terms.reverse := by
  obtain ⟨left, rfl⟩ : ∃ n, budget = n + 1 := ⟨budget - 1, by omega⟩
  have last := mt leaves.lt_length_iff.mp (not_not.mpr empty)
  obtain ⟨-, -, -, column⟩ := leaves
  cases expects : w.expectsTerm with
  | true =>
    refine loop_stop ?_ left
    rw [step, if_neg last, expects, column]
    rfl
  | false =>
    refine loop_done ?_ left
    rw [step, if_neg last, expects]
    rfl

/-! What a step passes. -/

theorem passTerm_minus (leaves : f.Leaves w.index back) (minus : back.text.head? = some '-') :
    w.passTerm f = .ok { w with negative := !w.negative, index := w.index + 1 } := by
  obtain ⟨text, split⟩ := List.head?_eq_some_iff.mp minus
  rw [passTerm, leaves.byteIn_ascii split (by decide)]
  rfl

theorem passTerm_plus (leaves : f.Leaves w.index back) (plus : back.text.head? = some '+') :
    w.passTerm f = .ok { w with index := w.index + 1 } := by
  obtain ⟨text, split⟩ := List.head?_eq_some_iff.mp plus
  rw [passTerm, leaves.byteIn_ascii split (by decide)]
  rfl

theorem passTerm_cases (leaves : f.Leaves w.index back) (more : back.text ≠ [])
    (minus : ¬ back.text.head? = some '-') (plus : ¬ back.text.head? = some '+') :
    (∃ e, back.term = .error e ∧ w.passTerm f = .error (.refused e)) ∨
      ∃ value n stop, back.term = .ok (value, n) ∧
        w.passTerm f = .ok ⟨⟨w.negative, back.column, value⟩ :: w.terms, false, false, stop⟩ ∧
        w.index < stop ∧ f.Leaves stop (back.drop n) := by
  obtain ⟨c, text, split⟩ := List.exists_cons_of_ne_nil more
  have head : back.text.head? = some c := congrArg List.head? split
  obtain ⟨b, found, same⟩ := leaves.byteIn_head (ε := LineError) head
  rw [head, Option.some_inj] at minus plus
  rw [passTerm, found, Except.ok_bind, if_neg (mt (same.eq_iff (by decide)).mp minus),
    if_neg (mt (same.eq_iff (by decide)).mp plus)]
  rcases termAt_cases leaves more with
    ⟨e, refused, stops⟩ | ⟨value, n, stop, read, readAt, further, behind⟩
  · rw [stops]
    exact .inl ⟨e, refused, rfl⟩
  · obtain ⟨-, -, -, column⟩ := leaves
    rw [readAt, column]
    exact .inr ⟨value, n, stop, read, rfl, further, behind⟩

theorem passOperator_eq (leaves : f.Leaves w.index back) {c : Char} {text : List Char}
    (split : back.text = c :: text) :
    w.passOperator f =
      if c = '+' then .ok { w with expectsTerm := true, index := w.index + 1 }
      else if c = '-' then
        .ok { w with expectsTerm := true, negative := true, index := w.index + 1 }
      else .error (.refused ⟨back.column, .unexpected c⟩) := by
  have head : back.text.head? = some c := congrArg List.head? split
  obtain ⟨b, found, same⟩ := leaves.byteIn_head (ε := LineError) head
  rw [passOperator, found, Except.ok_bind, leaves.unexpected_eq head]
  simp only [same.eq_iff (k := '+') (by decide), same.eq_iff (k := '-') (by decide)]
  rfl

/-- A term and the blanks behind it. -/
theorem loop_term {i n : Nat} {terms : List Term} {negative : Bool} {value : TermValue}
    (leaves : f.Leaves i back) (more : back.text ≠ []) (minus : ¬ back.text.head? = some '-')
    (plus : ¬ back.text.head? = some '+') (read : back.term = .ok (value, n))
    (room : utf8Length back.text < budget) :
    ∃ j left, f.Leaves j (back.drop n).skipBlanks ∧
      utf8Length (back.drop n).skipBlanks.text < left ∧
      loop (step f) budget ⟨terms, negative, true, i⟩ =
        loop (step f) left ⟨⟨negative, back.column, value⟩ :: terms, false, false, j⟩ := by
  rcases passTerm_cases (w := ⟨terms, negative, true, i⟩) leaves more minus plus with
    ⟨e, refused, -⟩ | ⟨value', n', stop, same, passed, further, behind⟩
  · cases read.symm.trans refused
  · cases read.symm.trans same
    exact loop_pass (w := ⟨terms, negative, true, i⟩) leaves more room passed further behind

/-- An operator and the blanks behind it. -/
theorem loop_operator {i : Nat} {terms : List Term} {c : Char} {text : List Char}
    (leaves : f.Leaves i back) (split : back.text = c :: text) (operator : c = '+' ∨ c = '-')
    (room : utf8Length back.text < budget) :
    ∃ j left, f.Leaves j (back.drop 1).skipBlanks ∧
      utf8Length (back.drop 1).skipBlanks.text < left ∧
      loop (step f) budget ⟨terms, false, false, i⟩ =
        loop (step f) left ⟨terms, c = '-', true, j⟩ := by
  have passed := passOperator_eq (w := ⟨terms, false, false, i⟩) leaves split
  have head : back.text.head? = some c := congrArg List.head? split
  have more : back.text ≠ [] := split ▸ List.cons_ne_nil c text
  rcases operator with rfl | rfl
  · exact loop_pass (w := ⟨terms, false, false, i⟩) leaves more room passed (Nat.lt_succ_self i)
      (leaves.drop_one head (by decide))
  · exact loop_pass (w := ⟨terms, false, false, i⟩) leaves more room passed (Nat.lt_succ_self i)
      (leaves.drop_one head (by decide))

/-- The loop over terms and operators ends, with the terms that `Fragment.terms` finds. -/
theorem loop_terms {i : Nat} {terms : List Term} {negative : Bool} (leaves : f.Leaves i back)
    (room : utf8Length back.text < budget) :
    loop (step f) budget ⟨terms, negative, true, i⟩ =
      checked ((back.terms negative).map (terms.reverse ++ ·)) := by
  -- each case of the reader over characters is one step of the loop, or two where an operator
  -- follows a term, and each step leaves fewer bytes than the budget has steps
  fun_induction Fragment.terms negative back generalizing i terms budget
  case case1 negative back empty => exact loop_end leaves empty room
  case case2 negative back more minus ih =>
    obtain ⟨j, left, behind, room, moves⟩ := loop_pass (w := ⟨terms, negative, true, i⟩) leaves more
      room (passTerm_minus leaves minus) (Nat.lt_succ_self i) (leaves.drop_one minus (by decide))
    exact moves.trans (ih behind room)
  case case3 negative back more minus plus ih =>
    obtain ⟨j, left, behind, room, moves⟩ := loop_pass (w := ⟨terms, negative, true, i⟩) leaves more
      room (passTerm_plus leaves plus) (Nat.lt_succ_self i) (leaves.drop_one plus (by decide))
    exact moves.trans (ih behind room)
  case case4 negative back more minus plus e refused =>
    rcases passTerm_cases (w := ⟨terms, negative, true, i⟩) leaves more minus plus with
      ⟨e', same, stops⟩ | ⟨value, n, stop, read, -⟩
    · cases refused.symm.trans same
      exact loop_refused leaves more room stops
    · cases refused.symm.trans read
  case case5 negative back more minus plus value n read term rest empty =>
    obtain ⟨j, left, behind, room, moves⟩ := loop_term leaves more minus plus read room
    refine moves.trans ((loop_end behind empty room).trans ?_)
    exact congrArg Except.ok List.reverse_cons
  case case6 negative back more minus plus value n read term rest c text split operator ih =>
    obtain ⟨j, left, behind, room, moves⟩ := loop_term leaves more minus plus read room
    obtain ⟨j, left, behind, room, moves'⟩ := loop_operator behind split operator room
    refine (moves.trans moves').trans ((ih behind room).trans ?_)
    rw [List.reverse_cons]
    cases Fragment.terms (decide (c = '-')) (rest.drop 1).skipBlanks with
    | error e => rfl
    | ok found =>
      have listed : terms.reverse ++ [term] ++ found = terms.reverse ++ term :: found := by
        rw [List.append_assoc, List.singleton_append]
      exact congrArg Except.ok listed
  case case7 negative back more minus plus value n read rest c text split other =>
    obtain ⟨j, left, behind, room, moves⟩ := loop_term leaves more minus plus read room
    have refused :=
      passOperator_eq (w := ⟨⟨negative, back.column, value⟩ :: terms, false, false, j⟩) behind split
    rw [not_or] at other
    rw [if_neg other.1, if_neg other.2] at refused
    exact moves.trans (loop_refused behind (split ▸ List.cons_ne_nil c text) room refused)

end TermWalk

/-- `Expression.parse` in place. -/
def Expression.parseInPlace (f : Fragment) : Checked LineError Expression := do
  let start ← f.runEnd isAsciiBlank 0
  let terms ← loop (TermWalk.step f) (f.bytes.length + 1) ⟨[], false, true, start⟩
  return ⟨f.column + start, terms⟩

/-- Every expression is read without a cut inside a character, and the reading ends. -/
theorem Expression.parseInPlace_eq (f : Fragment) : parseInPlace f = checked (parse f) := by
  obtain ⟨start, -, end_eq, leaves⟩ := (Fragment.Leaves.refl f).exists_blanksEnd (ε := LineError)
  have room : utf8Length f.skipBlanks.text < f.bytes.length + 1 := by
    rw [leaves.length_bytes]
    omega
  rw [parseInPlace, end_eq, Except.ok_bind, TermWalk.loop_terms leaves room, parse]
  obtain ⟨-, -, -, column⟩ := leaves
  rw [column]
  cases f.skipBlanks.terms false <;> rfl

end RobotMachine
