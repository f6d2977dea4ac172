import RobotMachine.Proofs.LiteralWalk

/-!
# Scanning a line in place

The scanner cuts a line at the indices where its walks stop: in front of a comment, at the commas
between operands, and where a run of identifier characters or blanks ends.

* `codeInPlace_eq`, `Fragment.splitOperandsInPlace_eq`, `SourceLine.scanInPlace_eq`: on every text
  the cuts are between characters, and they give what `codeOfLine`, `Fragment.splitOperands` and
  `SourceLine.scan` say.
-/

namespace RobotMachine

/-! ## Comments -/

/-- Looks for the start of a comment. It keeps the index of the last quote that opened a literal,
which must be closed before the line ends. -/
def commentWalker (f : Fragment) : Walker Nat Fragment where
  visit opened i b :=
    if b = ';' ∨ b = '/' ∧ f.byte? (i + 1) = some '/' then (f.cut 0 i).map .inr
    else .ok (.inl (if isQuote b then i else opened))
  finish opened quote :=
    match quote with
    | none => .ok f
    | some quote => .error (.refused ⟨f.column + opened, .unterminatedLiteral quote⟩)

/-- `codeOfLine` in place. -/
def codeInPlace (line : List Char) : Checked LineError Fragment :=
  (commentWalker (.ofLine line)).run (.ofLine line) 0

theorem skipsHigh_commentWalker (f : Fragment) : (commentWalker f).SkipsHigh := by
  intro opened i b high
  have code : ¬ (b = ';' ∨ b = '/' ∧ f.byte? (i + 1) = some '/') := by
    rintro (same | ⟨same, -⟩)
    · exact ne_of_high high (by decide) same
    · exact ne_of_high high (by decide) same
  rw [commentWalker]
  simp only [if_neg code, isQuote_of_high high, Bool.false_eq_true, if_false]

section Comment

variable {f : Fragment} {before text : List Char} {c : Char} {opened : Nat}

theorem startsComment_iff (split : f.text = before ++ c :: text) :
    (c = ';' ∨ c = '/' ∧ f.byte? (utf8Length before + 1) = some '/') ↔
      c = ';' ∨ c = '/' ∧ text.head? = some '/' := by
  refine or_congr_right (and_congr_right ?_)
  rintro rfl
  have leaves : f.Leaves (utf8Length before) ⟨f.column + utf8Length before, '/' :: text⟩ :=
    ⟨before, split, rfl, rfl⟩
  exact (leaves.drop_one rfl (by decide)).byte?_eq_some_iff (by decide)

theorem visit_comment (split : f.text = before ++ c :: text)
    (comment : c = ';' ∨ c = '/' ∧ text.head? = some '/') :
    (commentWalker f).visit opened (utf8Length before) c = .ok (.inr ⟨f.column, before⟩) := by
  have cut := (Fragment.Leaves.refl f).cut_eq (ε := LineError) split
  rw [Nat.zero_add] at cut
  rw [commentWalker]
  simp only [if_pos ((startsComment_iff split).mpr comment), cut, Except.ok_map]

theorem visit_code (split : f.text = before ++ c :: text)
    (code : ¬ (c = ';' ∨ c = '/' ∧ text.head? = some '/')) :
    (commentWalker f).visit opened (utf8Length before) c =
      .ok (.inl (if isQuote c then utf8Length before else opened)) := by
  rw [commentWalker]
  simp only [if_neg (mt (startsComment_iff split).mp code)]

end Comment

theorem walk_commentWalker {f : Fragment} {before text : List Char}
    (split : f.text = before ++ text) {quoting : Quoting} {opened start : Nat}
    (within : quoting ≠ .outside → start = f.column + opened) :
    (commentWalker f).walk opened quoting (utf8Length before) text =
      checked ((codeText quoting start (f.column + utf8Length before) text).map
        fun code => ⟨f.column, before ++ code⟩) := by
  -- the place of the last quote that opened a literal only matters inside of one, so this is all
  -- that the two sides have to agree on
  induction text generalizing quoting opened start before with
  | nil =>
    rw [List.append_nil] at split
    cases quoting with
    | outside =>
      rw [codeText, Except.ok_map, List.append_nil, ← split]
      rfl
    | inside quote =>
      rw [within (by rintro ⟨⟩)]
      rfl
    | escaped quote =>
      rw [within (by rintro ⟨⟩)]
      rfl
  | cons c text ih =>
    have leaves : f.Leaves (utf8Length before) ⟨f.column + utf8Length before, c :: text⟩ :=
      ⟨before, split, rfl, rfl⟩
    have next : f.text = (before ++ [c]) ++ text := by
      rw [split, List.append_assoc, List.singleton_append]
    have follows {quoting : Quoting} {opened start : Nat}
        (within : quoting ≠ .outside → start = f.column + opened) :
        (commentWalker f).walk opened quoting (utf8Length before + c.utf8Size) text =
          checked ((codeText quoting start (f.column + utf8Length before + c.utf8Size) text).map
            fun code => ⟨f.column, before ++ c :: code⟩) := by
      have rest := ih next within
      rw [utf8Length_concat, ← Nat.add_assoc] at rest
      simpa only [List.append_assoc, List.singleton_append] using rest
    by_cases out : quoting = .outside
    · subst out
      rw [Walker.walk, if_pos rfl, codeText]
      by_cases comment : c = ';' ∨ c = '/' ∧ text.head? = some '/'
      · rw [if_pos ⟨rfl, comment⟩, visit_comment split comment, Except.ok_map, List.append_nil]
        rfl
      · rw [if_neg fun h => comment h.2, visit_code split comment, Except.ok_bind]
        simp only [if_true]
        have opens : Quoting.outside.next c ≠ .outside →
            f.column + utf8Length before =
              f.column + if isQuote c then utf8Length before else opened := by
          rw [Quoting.next_outside]
          intro within
          split
          · rfl
          · next plain => exact absurd (if_neg plain) within
        rw [follows opens]
        cases codeText (Quoting.outside.next c) _ _ text <;> rfl
    · rw [Walker.walk, if_neg out, codeText, if_neg fun h => out h.1]
      have still : quoting.next c ≠ .outside → start = f.column + opened := fun _ => within out
      rw [follows still]
      simp only [if_neg out]
      cases codeText (quoting.next c) _ _ text <;> rfl

/-- Comments are dropped without a cut inside a character, and without a look behind the end. -/
theorem codeInPlace_eq (line : List Char) : codeInPlace line = checked (codeOfLine line) := by
  have split : (Fragment.ofLine line).text = [] ++ line := rfl
  rw [codeInPlace, codeOfLine, Walker.run_eq_walk (skipsHigh_commentWalker _)]
  exact walk_commentWalker split fun inside => absurd rfl inside

/-! ## Operands -/

/-- What the walk over operands keeps: the operands so far, the newest first, the depth of
brackets, and the index at which the next operand starts. -/
structure OperandWalk where
  found : List Fragment
  depth : Nat
  start : Nat

/-- The operand between two indices, which must not be blank. -/
def Fragment.cutOperand (f : Fragment) (start stop : Nat) : Checked LineError Fragment := do
  let piece ← f.cut start stop
  checked piece.toOperand

/-- Looks for the commas between operands. -/
def operandWalker (f : Fragment) : Walker OperandWalk (List Fragment) where
  visit walk i b :=
    if b = ',' ∧ walk.depth = 0 then do
      let operand ← f.cutOperand walk.start i
      return .inl ⟨operand :: walk.found, 0, i + 1⟩
    else
      .ok (.inl { walk with depth := bracketDepth walk.depth b })
  finish walk _ := do
    let operand ← f.cutOperand walk.start f.bytes.length
    return (operand :: walk.found).reverse

/-- `Fragment.splitOperands` in place. -/
def Fragment.splitOperandsInPlace (f : Fragment) : Checked LineError (List Fragment) :=
  if f.text.all isBlank then .ok [] else (operandWalker f).run f ⟨[], 0, 0⟩

theorem skipsHigh_operandWalker (f : Fragment) : (operandWalker f).SkipsHigh := by
  intro walk i b high
  have comma : ¬ (b = ',' ∧ walk.depth = 0) := fun h => ne_of_high high (by decide) h.1
  rw [operandWalker]
  simp only [if_neg comma, bracketDepth, if_neg (ne_of_high high (k := '[') (by decide)),
    if_neg (ne_of_high high (k := ']') (by decide))]

theorem commaPieces_column (quoting : Quoting) (depth column : Nat) (text : List Char) :
    (commaPieces quoting depth column text).1.column = column := by
  cases text with
  | nil => rfl
  | cons c text =>
    rw [commaPieces]
    split <;> rfl

/-- The pieces between commas when the first of them has begun already. -/
def piecesFrom (opened : Fragment) (quoting : Quoting) (depth : Nat) (text : List Char) :
    List Fragment :=
  let (first, others) := commaPieces quoting depth (opened.column + utf8Length opened.text) text
  ⟨opened.column, opened.text ++ first.text⟩ :: others

section Pieces

variable {opened : Fragment} {quoting : Quoting} {depth : Nat} {c : Char} {text : List Char}

theorem piecesFrom_nil : piecesFrom opened quoting depth [] = [opened] := by
  rw [piecesFrom, commaPieces]
  simp only [List.append_nil]

theorem piecesFrom_empty (column : Nat) :
    piecesFrom ⟨column, []⟩ quoting depth text =
      (commaPieces quoting depth column text).1 :: (commaPieces quoting depth column text).2 := by
  have start := commaPieces_column quoting depth column text
  rw [piecesFrom]
  simp only [utf8Length, Nat.add_zero, List.nil_append, List.cons.injEq, and_true]
  generalize commaPieces quoting depth column text = pieces at start
  cases start
  rfl

theorem piecesFrom_comma :
    piecesFrom opened .outside 0 (',' :: text) =
      opened :: piecesFrom ⟨opened.column + utf8Length opened.text + 1, []⟩ .outside 0 text := by
  rw [piecesFrom_empty, piecesFrom, commaPieces, if_pos ⟨rfl, rfl, rfl⟩]
  simp only [List.append_nil]

theorem piecesFrom_cons (piece : ¬ (quoting = .outside ∧ depth = 0 ∧ c = ',')) :
    piecesFrom opened quoting depth (c :: text) =
      piecesFrom ⟨opened.column, opened.text ++ [c]⟩ (quoting.next c)
        (if quoting = .outside then bracketDepth depth c else depth) text := by
  rw [piecesFrom, commaPieces, if_neg piece, piecesFrom, utf8Length_concat, ← Nat.add_assoc]
  simp only [List.append_assoc, List.singleton_append]

end Pieces

section Operands

variable {f : Fragment} {front piece text : List Char}

theorem cutOperand_eq (split : f.text = front ++ piece ++ text) :
    f.cutOperand (utf8Length front) (utf8Length (front ++ piece)) =
      checked (Fragment.toOperand ⟨f.column + utf8Length front, piece⟩) := by
  have leaves : f.Leaves (utf8Length front) ⟨f.column + utf8Length front, piece ++ text⟩ :=
    ⟨front, by rw [split, List.append_assoc], rfl, rfl⟩
  rw [Fragment.cutOperand, utf8Length_append, leaves.cut_eq rfl]
  rfl

theorem visit_comma (split : f.text = front ++ piece ++ ',' :: text) (found : List Fragment) :
    (operandWalker f).visit ⟨found, 0, utf8Length front⟩ (utf8Length (front ++ piece)) ',' =
      (checked (Fragment.toOperand ⟨f.column + utf8Length front, piece⟩)).map fun operand =>
        .inl ⟨operand :: found, 0, utf8Length (front ++ piece ++ [','])⟩ := by
  rw [← cutOperand_eq split, utf8Length_concat]
  rfl

theorem walk_end (split : f.text = front ++ piece) (found : List Fragment) (quoting : Quoting)
    (depth : Nat) :
    (operandWalker f).walk ⟨found, depth, utf8Length front⟩ quoting (utf8Length (front ++ piece))
        [] =
      (checked (Fragment.toOperand ⟨f.column + utf8Length front, piece⟩)).map fun operand =>
        (operand :: found).reverse := by
  have length : f.bytes.length = utf8Length (front ++ piece) := by
    rw [Fragment.bytes, length_utf8Bytes, split]
  rw [← List.append_nil (front ++ piece)] at split
  rw [← cutOperand_eq split, ← length]
  cases quoting <;> rfl

theorem walk_operandWalker (split : f.text = front ++ piece ++ text) (found : List Fragment)
    (quoting : Quoting) (depth : Nat) :
    (operandWalker f).walk ⟨found, depth, utf8Length front⟩ quoting (utf8Length (front ++ piece))
        text =
      checked (((piecesFrom ⟨f.column + utf8Length front, piece⟩ quoting depth text).mapM
        Fragment.toOperand).map (found.reverse ++ ·)) := by
  induction text generalizing front piece found quoting depth with
  | nil =>
    rw [List.append_nil] at split
    rw [walk_end split, piecesFrom_nil, List.mapM_cons, List.mapM_nil]
    cases Fragment.toOperand _ with
    | error e => rfl
    | ok operand =>
      rw [checked_ok, Except.ok_map, List.reverse_cons]
      rfl
  | cons c text ih =>
    by_cases comma : quoting = .outside ∧ depth = 0 ∧ c = ','
    · obtain ⟨rfl, rfl, rfl⟩ := comma
      have behind : f.text = front ++ piece ++ [','] ++ [] ++ text := by
        rw [split, List.append_nil, List.append_assoc (front ++ piece), List.singleton_append]
      rw [Walker.walk, if_pos rfl, visit_comma split, piecesFrom_comma, List.mapM_cons]
      cases Fragment.toOperand ⟨f.column + utf8Length front, piece⟩ with
      | error e => rfl
      | ok operand =>
        have rest := ih behind (operand :: found) .outside 0
        have size : utf8Length [','] = 1 := by decide
        simp only [List.append_nil, utf8Length_append, ← Nat.add_assoc, size] at rest ⊢
        refine rest.trans ?_
        cases List.mapM Fragment.toOperand _ with
        | error e => rfl
        | ok operands =>
          have listed : (operand :: found).reverse ++ operands =
              found.reverse ++ operand :: operands := by
            rw [List.reverse_cons, List.append_assoc, List.singleton_append]
          exact congrArg Except.ok listed
    · have longer : f.text = front ++ (piece ++ [c]) ++ text := by
        rw [split, ← List.append_assoc front piece, List.append_assoc (front ++ piece),
          List.singleton_append]
      have rest (depth : Nat) := ih longer found (quoting.next c) depth
      rw [← List.append_assoc] at rest
      rw [piecesFrom_cons comma, ← rest, utf8Length_concat, Walker.walk]
      split
      · next out =>
        have visited : (operandWalker f).visit ⟨found, depth, utf8Length front⟩
            (utf8Length (front ++ piece)) c =
              .ok (.inl ⟨found, bracketDepth depth c, utf8Length front⟩) :=
          if_neg fun h => comma ⟨out, h.2, h.1⟩
        rw [visited]
        rfl
      · rfl

end Operands

/-- Operands are cut out between characters, whatever stands in the text: literals that are not
closed, brackets that do not match, or a backslash at the end. -/
theorem Fragment.splitOperandsInPlace_eq (f : Fragment) :
    f.splitOperandsInPlace = checked f.splitOperands := by
  rw [splitOperandsInPlace, splitOperands]
  split
  · rfl
  · have split : f.text = [] ++ [] ++ f.text := rfl
    have walk := walk_operandWalker split [] .outside 0
    have all (operands : Except LineError (List Fragment)) :
        operands.map ([].reverse ++ ·) = operands := by
      cases operands <;> rfl
    rw [all, utf8Length, Nat.add_zero, piecesFrom_empty] at walk
    rw [Walker.run_eq_walk (skipsHigh_operandWalker f)]
    exact walk

/-! ## Lines -/

/-- The index behind the identifier at an index. -/
def Fragment.identifierEnd (f : Fragment) (i : Nat) : Checked LineError Nat := do
  let b ← f.byteIn i
  if isIdentifierStart b then f.runEnd isIdentifierChar i else f.unexpected i

/-- Checks that the text ends at an index or goes on with a blank. -/
def Fragment.expectBlank (f : Fragment) (i : Nat) : Checked LineError Unit :=
  if i < f.bytes.length then do
    let b ← f.byteIn i
    if isAsciiBlank b then return else f.unexpected i
  else
    return

/-- `Clause.ofHead` in place, for a head between two indices. -/
def Fragment.clauseBetween (f : Fragment) (start stop : Nat) : Checked LineError Clause := do
  let head ← f.cut start stop
  f.expectBlank stop
  let rest ← f.cutFrom stop
  let operands ← rest.splitOperandsInPlace
  return ⟨head, operands⟩

/-- `SourceLine.scan` in place. -/
def SourceLine.scanInPlace (line : List Char) : Checked LineError SourceLine := do
  let code ← codeInPlace line
  let start ← code.runEnd isAsciiBlank 0
  if code.bytes.length ≤ start then return {}
  let stop ← code.identifierEnd start
  if code.byte? stop ≠ some ':' then
    let clause ← code.clauseBetween start stop
    return { clause }
  let label ← code.cut start stop
  let start ← code.runEnd isAsciiBlank (stop + 1)
  if code.bytes.length ≤ start then return { label }
  let stop ← code.identifierEnd start
  let clause ← code.clauseBetween start stop
  return { label, clause }

section Lines

variable {f start rest : Fragment} {i stop : Nat}

/-- An identifier ends where the text stops being one, or what stands there is refused. -/
theorem identifierEnd_cases (leaves : f.Leaves i start) (more : start.text ≠ []) :
    (∃ e, start.splitIdentifier = .error e ∧ f.identifierEnd i = .error (.refused e)) ∨
      ∃ word rest stop, start.splitIdentifier = .ok (word, rest) ∧ f.identifierEnd i = .ok stop ∧
        f.cut i stop = (.ok word : Checked LineError Fragment) ∧ f.Leaves stop rest := by
  obtain ⟨c, text, split⟩ := List.exists_cons_of_ne_nil more
  have head : start.text.head? = some c := congrArg List.head? split
  obtain ⟨b, found, same⟩ := leaves.byteIn_head (ε := LineError) head
  rw [Fragment.identifierEnd, found, Except.ok_bind,
    asciiOnly_isIdentifierStart.eq_of_sameAscii same, Fragment.splitIdentifier, split]
  by_cases starts : isIdentifierStart c = true
  · simp only [if_pos starts]
    exact .inr ⟨_, _, _, rfl, leaves.runEnd_eq asciiOnly_isIdentifierChar, leaves.cut_takeWhile _,
      leaves.dropWhile _⟩
  · simp only [if_neg starts]
    exact .inl ⟨_, rfl, leaves.unexpected_eq head⟩

theorem clauseBetween_eq {head : Fragment}
    (cut : f.cut i stop = (.ok head : Checked LineError Fragment)) (leaves : f.Leaves stop rest) :
    f.clauseBetween i stop = checked (Clause.ofHead head rest) := by
  rw [Fragment.clauseBetween, cut, Except.ok_bind, leaves.cutFrom_eq, Except.ok_bind,
    rest.splitOperandsInPlace_eq, Clause.ofHead, Fragment.expectBlank]
  obtain ⟨column, text⟩ := rest
  cases text with
  | nil =>
    rw [if_neg (mt leaves.lt_length_iff.mp (not_not.mpr rfl))]
    rfl
  | cons c text =>
    obtain ⟨b, found, same⟩ := leaves.byteIn_head (ε := LineError) rfl
    rw [if_pos (leaves.lt_length rfl), found, Except.ok_bind,
      asciiOnly_isAsciiBlank.eq_of_sameAscii same]
    by_cases blank : isAsciiBlank c = true
    · simp only [if_pos blank]
      cases Fragment.splitOperands ⟨column, c :: text⟩ <;> rfl
    · simp only [if_neg blank]
      rw [leaves.unexpected_eq rfl]
      rfl

/-- Every line is scanned without a cut inside a character, and without a look behind the end. -/
theorem SourceLine.scanInPlace_eq (line : List Char) : scanInPlace line = checked (scan line) := by
  rw [scanInPlace, scan, codeInPlace_eq, checked_bind]
  refine bind_congr fun code => ?_
  obtain ⟨i, -, end_eq, leaves⟩ := (Fragment.Leaves.refl code).exists_blanksEnd (ε := LineError)
  rw [end_eq, Except.ok_bind]
  by_cases empty : code.skipBlanks.text = []
  · rw [if_pos (leaves.length_le_iff.mpr empty), if_pos empty]
    rfl
  rw [if_neg (mt leaves.length_le_iff.mp empty), if_neg empty]
  rcases identifierEnd_cases leaves empty with
    ⟨e, split, refused⟩ | ⟨word, rest, stop, split, end_eq, cut, leaves⟩
  · rw [split, refused]
    rfl
  rw [split, end_eq, Except.ok_bind, Except.ok_bind]
  by_cases label : rest.text.head? = some ':'
  · rw [if_neg (not_not.mpr ((leaves.byte?_eq_some_iff (by decide)).mpr label)), cut,
      Except.ok_bind]
    obtain ⟨i, -, end_eq, leaves⟩ :=
      (leaves.drop_one label (by decide)).exists_blanksEnd (ε := LineError)
    simp only [if_neg (not_not.mpr label)]
    rw [end_eq, Except.ok_bind]
    by_cases empty : (rest.drop 1).skipBlanks.text = []
    · rw [if_pos (leaves.length_le_iff.mpr empty), if_pos empty]
      rfl
    rw [if_neg (mt leaves.length_le_iff.mp empty), if_neg empty]
    rcases identifierEnd_cases leaves empty with
      ⟨e, split, refused⟩ | ⟨head, rest, stop, split, end_eq, cut, leaves⟩
    · rw [split, refused]
      rfl
    rw [split, end_eq, Except.ok_bind, Except.ok_bind, clauseBetween_eq cut leaves]
    simp only
    cases Clause.ofHead head rest <;> rfl
  · rw [if_pos (mt (leaves.byte?_eq_some_iff (by decide)).mp label), clauseBetween_eq cut leaves]
    simp only [if_pos label]
    cases Clause.ofHead word rest <;> rfl

end Lines

end RobotMachine
