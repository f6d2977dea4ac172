import RobotMachine.Proofs.LineHeads

/-!
# Labelled lines

A label is read off the front of its line. What stands behind its colon is read as on a line of its
own, but that no second label may stand there.

* `SourceLine.ofStart_of_label`: a line with a label.
* `SourceLine.scan_label_cut`: cut behind the colon, a labelled line makes a line with the label
  alone and a line with the clause alone.
-/

namespace RobotMachine.SourceLine

open Fragment (SameText Trails)

/-! ## Clauses behind labels -/

/-- The clause at the start of a fragment, where no label may stand any more. -/
def clauseAt (start : Fragment) : Except LineError (Option Clause) :=
  if start.text = [] then .ok none
  else do
    let (head, rest) ← start.splitIdentifier
    let clause ← Clause.ofHead head rest
    return some clause

theorem clauseAt_of_isIdentifier {head rest : List Char} (identifier : IsIdentifier head)
    (stops : Stops rest) (column : Nat) :
    clauseAt ⟨column, head ++ rest⟩ =
      (Clause.ofHead ⟨column, head⟩ ⟨column + utf8Length head, rest⟩).map some := by
  have split := Fragment.splitIdentifier_of_isIdentifier identifier
    (fun c first => (stops c first).1) column
  rw [clauseAt, if_neg (identifier.append_ne_nil rest), split]
  rfl

theorem clauseAt_eq_none {start : Fragment} (found : clauseAt start = .ok none) :
    start.text = [] := by
  rw [clauseAt] at found
  split at found
  · next empty => exact empty
  · obtain ⟨parts, -, found⟩ := Except.bind_eq_ok_iff.mp found
    obtain ⟨c, -, same⟩ := Except.bind_eq_ok_iff.mp found
    cases same

/-- A line whose code is blank is a comment at most. -/
theorem isBlankLine_of_codeOfLine {line : List Char} {code : Fragment} {column : Nat}
    (found : codeOfLine line = .ok code)
    (empty : (Fragment.skipBlanks ⟨column, code.text⟩).text = []) : IsBlankLine line := by
  obtain ⟨text, foundText, rfl⟩ := Except.map_eq_ok_iff.mp found
  obtain ⟨comment, rfl, isComment⟩ := codeText_prefix foundText
  obtain ⟨blanks, blank, split⟩ := Fragment.exists_blanks ⟨column, text⟩
  rw [Fragment.ofLine] at empty
  rw [empty, List.append_nil] at split
  change text = blanks at split
  subst split
  cases isComment with
  | none =>
    rw [List.append_nil]
    exact .empty blank
  | semicolon behind => exact .semicolon behind blank
  | slashes behind => exact .slashes behind blank

/-- A clause on its own is read alike where a label may stand: no colon follows its head. -/
theorem ofStart_of_clauseAt {start : Fragment} {c : Clause}
    (found : clauseAt start = .ok (some c)) :
    ofStart start = .ok { clause := some c } := by
  rw [clauseAt] at found
  split at found
  · cases found
  · next more =>
    obtain ⟨⟨head, rest⟩, split, found⟩ := Except.bind_eq_ok_iff.mp found
    obtain ⟨c', made, same⟩ := Except.bind_eq_ok_iff.mp found
    cases same
    have noColon : rest.text.head? ≠ some ':' := fun colon =>
      absurd ((Clause.ofHead_eq_ok made).2 ':' colon) (by decide)
    rw [ofStart, if_neg more, split, Except.ok_bind]
    dsimp only
    rw [if_pos noColon, made]
    rfl

theorem ofStart_of_label {label : List Char} (named : IsIdentifier label) (column : Nat)
    (rest : List Char) : ofStart ⟨column, label ++ ':' :: rest⟩ =
      (clauseAt (Fragment.skipBlanks ⟨column + utf8Length label + 1, rest⟩)).map
        fun clause => { label := some ⟨column, label⟩, clause } := by
  have colon : ∀ c ∈ (':' :: rest).head?, isIdentifierChar c = false := by
    rintro c ⟨⟩
    rfl
  have split := Fragment.splitIdentifier_of_isIdentifier named colon column
  have behind : Fragment.drop ⟨column + utf8Length label, ':' :: rest⟩ 1 =
      ⟨column + utf8Length label + 1, rest⟩ := rfl
  rw [ofStart, if_neg (named.append_ne_nil _), split, Except.ok_bind]
  dsimp only
  rw [if_neg (not_not.mpr List.head?_cons), behind, clauseAt]
  split
  · rfl
  · cases Fragment.splitIdentifier _ with
    | error e => rfl
    | ok parts =>
      obtain ⟨head, rest⟩ := parts
      rw [Except.ok_bind, Except.ok_bind]
      dsimp only
      cases Clause.ofHead head rest <;> rfl

/-! ## Labelled lines as texts -/

section

variable {blanks label : List Char} (blank : ∀ c ∈ blanks, isAsciiBlank c = true)
  (named : IsIdentifier label)

include blank named

theorem isMark_labelled : ∀ c ∈ blanks ++ label ++ [':'], isMark c = false :=
  List.forall_mem_append.mpr ⟨List.forall_mem_append.mpr
    ⟨fun c member => isMark_of_isAsciiBlank (blank c member), named.isMark⟩,
    List.forall_mem_singleton.mpr rfl⟩

theorem scan_labelled_eq {rest : List Char} {code : Fragment}
    (found : codeOfLine rest = .ok code) :
    ∃ column column', scan (blanks ++ label ++ ':' :: rest) =
      (clauseAt (Fragment.skipBlanks ⟨column', code.text⟩)).map
        fun clause => { label := some ⟨column, label⟩, clause } := by
  have whole := codeOfLine_append (isMark_labelled blank named) rest
  rw [found, List.append_assoc _ [':'] rest] at whole
  obtain ⟨_, foundWhole, rfl⟩ := whole.exists_ok
  rw [List.singleton_append] at foundWhole
  refine ⟨1 + utf8Length blanks, 1 + utf8Length blanks + utf8Length label + 1, ?_⟩
  rw [scan_eq, foundWhole, Except.ok_bind, Fragment.ofLine, List.append_assoc, List.append_assoc,
    List.singleton_append, Fragment.skipBlanks_append blank,
    Fragment.skipBlanks_of_isIdentifier named, ofStart_of_label named]

/-- A label with nothing behind it. -/
theorem scan_label_alone :
    ∃ column, scan (blanks ++ label ++ [':']) = .ok { label := some ⟨column, label⟩ } := by
  have none : codeOfLine [] = .ok ⟨1, []⟩ := rfl
  obtain ⟨column, _, scanned⟩ := scan_labelled_eq blank named none
  exact ⟨column, scanned⟩

/-- What stands behind the label is read as the code of a line of its own. -/
theorem exists_code_of_label {rest : List Char} {src : SourceLine}
    (scanned : scan (blanks ++ label ++ ':' :: rest) = .ok src) :
    ∃ code column column' clause, codeOfLine rest = .ok code ∧
      clauseAt (Fragment.skipBlanks ⟨column', code.text⟩) = .ok clause ∧
      src = { label := some ⟨column, label⟩, clause } := by
  have whole := codeOfLine_append (isMark_labelled blank named) rest
  cases found : codeOfLine rest with
  | error e =>
    rw [found, List.append_assoc _ [':'] rest] at whole
    obtain ⟨_, failed⟩ := whole.exists_error
    rw [List.singleton_append] at failed
    rw [scan_eq, failed] at scanned
    cases scanned
  | ok code =>
    obtain ⟨column, column', same⟩ := scan_labelled_eq blank named found
    obtain ⟨clause, behind, rfl⟩ := Except.map_eq_ok_iff.mp (same.symm.trans scanned)
    exact ⟨code, column, column', clause, rfl, behind, rfl⟩

/-- Behind the label the line goes on as a line of its own would. -/
theorem scan_label_cut {rest : List Char} {src : SourceLine}
    (scanned : scan (blanks ++ label ++ ':' :: rest) = .ok src) (statement : ¬IsBlankLine rest) :
    ∃ column c src', src = { label := some ⟨column, label⟩, clause := some c } ∧
      scan rest = .ok src' ∧ src'.content = (none, some c.content) := by
  obtain ⟨code, column, column', clause, found, behind, rfl⟩ :=
    exists_code_of_label blank named scanned
  cases clause with
  | none =>
    exact absurd (isBlankLine_of_codeOfLine found (clauseAt_eq_none behind)) statement
  | some c =>
    have trails : Trails ⟨column', code.text⟩ code := SameText.trails rfl
    have agree := ofStart_agree trails
    rw [ofStart_of_clauseAt behind] at agree
    obtain ⟨src', started, content⟩ := agree.exists_ok
    refine ⟨column, c, src', rfl, ?_, content.symm⟩
    rw [scan_eq, found]
    exact started

end

/-- A label, a clause behind it and no comment. -/
theorem scan_labelled {label head rest : List Char} (named : IsIdentifier label)
    (identifier : IsIdentifier head) (stops : Stops rest)
    (isCode : ∀ opened column, codeText .outside opened column rest = .ok rest) :
    ∃ column column', scan (label ++ ':' :: ' ' :: (head ++ rest)) =
      (Clause.ofHead ⟨column', head⟩ ⟨column' + utf8Length head, rest⟩).map
        fun c => { label := some ⟨column, label⟩, clause := some c } := by
  have noMark : ∀ c ∈ ' ' :: head, isMark c = false :=
    List.forall_mem_cons.mpr ⟨rfl, identifier.isMark⟩
  have code : codeOfLine (' ' :: (head ++ rest)) = .ok ⟨1, ' ' :: (head ++ rest)⟩ := by
    obtain ⟨opened, column, passed⟩ := codeText_append noMark 1 1 rest
    rw [codeOfLine, ← List.cons_append, passed, isCode]
    rfl
  have noBlanks : ∀ c ∈ ([] : List Char), isAsciiBlank c = true := List.forall_mem_nil _
  obtain ⟨column, column', scanned⟩ := scan_labelled_eq noBlanks named code
  have start : Fragment.skipBlanks ⟨column', ' ' :: (head ++ rest)⟩ =
      ⟨column' + utf8Length [' '], head ++ rest⟩ := by
    have space : ∀ c ∈ [' '], isAsciiBlank c = true := List.forall_mem_singleton.mpr rfl
    rw [← Fragment.skipBlanks_of_isIdentifier identifier]
    exact Fragment.skipBlanks_append space column' (head ++ rest)
  refine ⟨column, column' + utf8Length [' '], ?_⟩
  rw [List.nil_append] at scanned
  rw [scanned, start, clauseAt_of_isIdentifier identifier stops]
  cases Clause.ofHead ⟨_, head⟩ ⟨_, rest⟩ <;> rfl

/-- A label and a clause that is written with single spaces. -/
theorem scan_labelled_clauseText {label head : List Char} {texts : List (List Char)}
    (named : IsIdentifier label) (identifier : IsIdentifier head)
    (operands : ∀ text ∈ texts, IsOperand text)
    (noMark : ∀ text ∈ texts, ∀ c ∈ text, isMark c = false) :
    ∃ column column' fragments, scan (label ++ ':' :: ' ' :: clauseText head texts) =
        .ok { label := some ⟨column, label⟩, clause := some ⟨⟨column', head⟩, fragments⟩ } ∧
      fragments.map Fragment.text = texts := by
  cases texts with
  | nil =>
    have noText : Stops [] := nofun
    obtain ⟨column, column', scanned⟩ := scan_labelled named identifier noText fun _ _ => rfl
    rw [List.append_nil] at scanned
    exact ⟨column, column', [], scanned, rfl⟩
  | cons text texts =>
    have stops : Stops (' ' :: [',', ' '].intercalate (text :: texts)) := by
      rintro c ⟨⟩
      exact ⟨rfl, by decide⟩
    have unmarked : ∀ c ∈ ' ' :: [',', ' '].intercalate (text :: texts), (!isMark c) = true :=
      List.forall_mem_cons.mpr ⟨rfl, forall_mem_intercalate rfl fun t member c inside => by
        rw [noMark t member c inside]
        rfl⟩
    obtain ⟨column, column', scanned⟩ := scan_labelled named identifier stops
      (codeText_of_forall fun c member => (Bool.not_eq_true' _).mp (unmarked c member))
    obtain ⟨fragments, made, same⟩ := Clause.ofHead_intercalate operands nofun
      ⟨column', head⟩ (column' + utf8Length head)
    rw [made] at scanned
    exact ⟨column, column', fragments, scanned, same⟩

end RobotMachine.SourceLine
