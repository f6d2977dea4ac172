import RobotMachine.Proofs.LineContents

/-!
# Heads of lines

The head of a line is the identifier behind its blanks and its label. It keeps its meaning with any
of its letters in the other case.

* `SourceLine.scan_agree_recase`: the case of the letters in a head.
* `SourceLine.exists_lead`: where the head of a line stands.
-/

namespace RobotMachine

open Fragment (SameText Trails)

/-! ## Identifiers -/

theorem isMark_of_isIdentifierChar {c : Char} (identifier : isIdentifierChar c = true) :
    isMark c = false :=
  isMark_of_holds identifier rfl

theorem isIdentifierStart_iff_toNat {c : Char} : isIdentifierStart c = true ↔
    (0x41 ≤ c.toNat ∧ c.toNat ≤ 0x5a) ∨ (0x61 ≤ c.toNat ∧ c.toNat ≤ 0x7a) ∨
      c.toNat = 0x5f ∨ c.toNat = 0x2e := by
  simp only [isIdentifierStart, Bool.or_eq_true, beq_iff_eq, isAlpha_iff_toNat, ← Char.toNat_inj,
    or_assoc]
  exact Iff.rfl

theorem isIdentifierChar_iff {c : Char} : isIdentifierChar c = true ↔
    isIdentifierStart c = true ∨ 0x30 ≤ c.toNat ∧ c.toNat ≤ 0x39 := by
  simp only [isIdentifierChar, isIdentifierStart, Char.isAlphanum, Bool.or_eq_true,
    isDigit_iff_toNat]
  tauto

section Recase

variable {c c' : Char} (same : c.toLower = c'.toLower)

include same

theorem isIdentifierStart_recase (starts : isIdentifierStart c = true) :
    isIdentifierStart c' = true := by
  have lower := congrArg Char.toNat same
  rw [toNat_toLower, toNat_toLower] at lower
  rw [isIdentifierStart_iff_toNat] at starts ⊢
  split at lower <;> split at lower <;> omega

theorem isIdentifierChar_recase (goesOn : isIdentifierChar c = true) :
    isIdentifierChar c' = true := by
  rw [isIdentifierChar_iff] at goesOn ⊢
  refine goesOn.imp (isIdentifierStart_recase same) fun digit => ?_
  have lower := congrArg Char.toNat same
  rw [toNat_toLower, toNat_toLower] at lower
  split at lower <;> split at lower <;> omega

end Recase

namespace IsIdentifier

variable {name : List Char} (identifier : IsIdentifier name)

include identifier

theorem append_ne_nil (rest : List Char) : name ++ rest ≠ [] := by
  obtain ⟨c, more, rfl, -⟩ := identifier.starts
  exact List.cons_ne_nil c _

theorem isMark : ∀ c ∈ name, RobotMachine.isMark c = false :=
  fun c member => isMark_of_isIdentifierChar (identifier.goesOn c member)

/-- The case of the letters in it does not matter to what is an identifier. -/
theorem recase {name' : List Char} (lower : name.map Char.toLower = name'.map Char.toLower) :
    IsIdentifier name' := by
  constructor
  · obtain ⟨c, more, rfl, starts⟩ := identifier.starts
    rw [List.map_cons] at lower
    obtain ⟨c', more', rfl, head, -⟩ := List.map_eq_cons_iff.mp lower.symm
    exact ⟨c', more', rfl, isIdentifierStart_recase head.symm starts⟩
  · intro c' member
    have lowered : c'.toLower ∈ name'.map Char.toLower := List.mem_map_of_mem member
    rw [← lower] at lowered
    obtain ⟨c, goesOn, same⟩ := List.mem_map.mp lowered
    exact isIdentifierChar_recase same (identifier.goesOn c goesOn)

end IsIdentifier

/-! ## Parts of a line -/

/-- What may stand behind the code of a line. -/
inductive IsComment : List Char → Prop
  | none : IsComment []
  | semicolon (text : List Char) : IsComment (';' :: text)
  | slashes (text : List Char) : IsComment ('/' :: '/' :: text)

theorem IsComment.marks {comment : List Char} (isComment : IsComment comment) :
    ∀ c ∈ comment.head?, c = ';' ∨ c = '/' := by
  cases isComment with
  | none => nofun
  | semicolon =>
    rintro c ⟨⟩
    exact .inl rfl
  | slashes =>
    rintro c ⟨⟩
    exact .inr rfl

theorem codeText_prefix {quoting : Quoting} {opened column : Nat} {line code : List Char}
    (found : codeText quoting opened column line = .ok code) :
    ∃ comment, line = code ++ comment ∧ IsComment comment := by
  induction line generalizing quoting opened column code with
  | nil =>
    cases quoting with
    | outside =>
      cases found
      exact ⟨[], rfl, .none⟩
    | inside | escaped => cases found
  | cons d line ih =>
    rw [codeText] at found
    split at found
    · next comment =>
      cases found
      refine ⟨d :: line, rfl, ?_⟩
      rcases comment.2 with rfl | ⟨rfl, slash⟩
      · exact .semicolon line
      · obtain ⟨text, rfl⟩ := List.head?_eq_some_iff.mp slash
        exact .slashes text
    · obtain ⟨rest, foundRest, same⟩ := Except.bind_eq_ok_iff.mp found
      cases same
      obtain ⟨comment, whole, isComment⟩ := ih foundRest
      exact ⟨comment, congrArg (d :: ·) whole, isComment⟩

theorem Fragment.splitIdentifier_eq_ok {f word rest : Fragment} (more : f.text ≠ [])
    (split : f.splitIdentifier = .ok (word, rest)) :
    f.text = word.text ++ rest.text ∧ IsIdentifier word.text ∧
      ∀ c ∈ rest.text.head?, isIdentifierChar c = false := by
  obtain ⟨column, text⟩ := f
  obtain ⟨c, text, rfl⟩ := List.exists_cons_of_ne_nil more
  rw [splitIdentifier] at split
  dsimp only at split
  split at split
  · next starts =>
    cases split
    refine ⟨List.takeWhile_append_dropWhile.symm, ⟨?_, fun d => List.mem_takeWhile_imp⟩, ?_⟩
    · have goesOn := isIdentifierChar_iff.mpr (.inl starts)
      exact ⟨c, text.takeWhile isIdentifierChar, List.takeWhile_cons_of_pos goesOn, starts⟩
    · intro d first
      have stops := List.head?_dropWhile_not isIdentifierChar (c :: text)
      rw [show ((c :: text).dropWhile isIdentifierChar).head? = some d from first] at stops
      exact stops
  · cases split

theorem Clause.ofHead_eq_ok {head rest : Fragment} {c : Clause} (made : ofHead head rest = .ok c) :
    c.head = head ∧ ∀ d ∈ rest.text.head?, isAsciiBlank d = true := by
  obtain ⟨column, text⟩ := rest
  cases text with
  | nil =>
    cases made
    exact ⟨rfl, nofun⟩
  | cons d text =>
    simp only [ofHead] at made
    split at made
    · next blank =>
      obtain ⟨operands, -, rfl⟩ := Except.map_eq_ok_iff.mp made
      refine ⟨rfl, ?_⟩
      rintro d ⟨⟩
      exact blank
    · cases made

/-- In front of the text that is left stand blanks. -/
theorem Fragment.exists_blanks (f : Fragment) :
    ∃ blanks, (∀ c ∈ blanks, isAsciiBlank c = true) ∧ f.text = blanks ++ f.skipBlanks.text :=
  ⟨f.text.takeWhile isAsciiBlank, fun _ => List.mem_takeWhile_imp,
    List.takeWhile_append_dropWhile.symm⟩

namespace SourceLine

/-! ## Heads -/

/-- What may stand behind the head of a line. -/
def Stops (rest : List Char) : Prop :=
  ∀ c ∈ rest.head?, isIdentifierChar c = false ∧ c ≠ ':'

theorem Stops.of_codeOfLine {line : List Char} {code : Fragment} (stops : Stops line)
    (found : codeOfLine line = .ok code) : Stops code.text := by
  obtain ⟨text, foundText, rfl⟩ := Except.map_eq_ok_iff.mp found
  obtain ⟨comment, rfl, -⟩ := codeText_prefix foundText
  intro c first
  have start : text.head? = some c := first
  refine stops c ?_
  rw [List.head?_append, start]
  rfl

/-- The operands of a clause and a comment stand behind its head. -/
theorem Stops.of_ofHead {head rest : Fragment} {c : Clause} {comment : List Char}
    (made : Clause.ofHead head rest = .ok c) (marks : ∀ c ∈ comment.head?, c = ';' ∨ c = '/') :
    Stops (rest.text ++ comment) := by
  obtain ⟨-, blank⟩ := Clause.ofHead_eq_ok made
  intro d first
  rw [List.head?_append] at first
  cases start : rest.text.head? with
  | none =>
    rw [start] at first
    rcases marks d first with rfl | rfl <;> decide
  | some e =>
    rw [start] at first
    cases first
    have isBlank := blank d start
    exact ⟨isIdentifierChar_of_isAsciiBlank isBlank, ne_of_holds isBlank rfl⟩

theorem ofStart_of_isIdentifier {head rest : List Char} (identifier : IsIdentifier head)
    (stops : Stops rest) (column : Nat) :
    ofStart ⟨column, head ++ rest⟩ =
      (Clause.ofHead ⟨column, head⟩ ⟨column + utf8Length head, rest⟩).map
        fun clause => { clause := some clause } := by
  have noColon : rest.head? ≠ some ':' := fun colon => (stops ':' colon).2 rfl
  have split := Fragment.splitIdentifier_of_isIdentifier identifier
    (fun c first => (stops c first).1) column
  rw [ofStart, if_neg (identifier.append_ne_nil rest), split, Except.ok_bind]
  dsimp only
  rw [if_pos noColon]
  rfl

/-- What may stand in front of the head of a line: blanks, or a label with blanks around it. -/
inductive IsLead : List Char → Prop
  | blanks {blanks : List Char} : (∀ c ∈ blanks, isAsciiBlank c = true) → IsLead blanks
  | label {before label after : List Char} : (∀ c ∈ before, isAsciiBlank c = true) →
    IsIdentifier label → (∀ c ∈ after, isAsciiBlank c = true) →
    IsLead (before ++ label ++ ':' :: after)

theorem IsLead.isMark {lead : List Char} (isLead : IsLead lead) :
    ∀ c ∈ lead, RobotMachine.isMark c = false := by
  cases isLead with
  | blanks blank => exact fun c member => isMark_of_isAsciiBlank (blank c member)
  | label before identifier after =>
    simp only [List.forall_mem_append, List.forall_mem_cons]
    exact ⟨⟨fun c member => isMark_of_isAsciiBlank (before c member), identifier.isMark⟩, rfl,
      fun c member => isMark_of_isAsciiBlank (after c member)⟩

/-- The head of a line is the identifier behind its lead. -/
theorem IsLead.ofStart_eq {lead : List Char} (isLead : IsLead lead) :
    ∃ label column, ∀ head rest, IsIdentifier head → Stops rest →
      ofStart (Fragment.skipBlanks ⟨1, lead ++ (head ++ rest)⟩) =
        (Clause.ofHead ⟨column, head⟩ ⟨column + utf8Length head, rest⟩).map
          fun clause => { label, clause := some clause } := by
  cases isLead with
  | blanks blank =>
    refine ⟨none, 1 + utf8Length lead, fun head rest identifier stops => ?_⟩
    rw [Fragment.skipBlanks_append blank, Fragment.skipBlanks_of_isIdentifier identifier]
    exact ofStart_of_isIdentifier identifier stops _
  | @label before label after blank named blank' =>
    let column := 1 + utf8Length before
    refine ⟨some ⟨column, label⟩, column + utf8Length label + utf8Length [':'] + utf8Length after,
      fun head rest identifier stops => ?_⟩
    have colon : ∀ c ∈ (':' :: (after ++ (head ++ rest))).head?, isIdentifierChar c = false := by
      rintro c ⟨⟩
      rfl
    have split := Fragment.splitIdentifier_of_isIdentifier named colon column
    have behind (column : Nat) :
        ((Fragment.mk column (':' :: (after ++ (head ++ rest)))).drop 1).skipBlanks =
          ⟨column + utf8Length [':'] + utf8Length after, head ++ rest⟩ := by
      change Fragment.skipBlanks ⟨column + utf8Length [':'], after ++ (head ++ rest)⟩ = _
      rw [Fragment.skipBlanks_append blank', Fragment.skipBlanks_of_isIdentifier identifier]
    rw [List.append_assoc, List.append_assoc, List.cons_append, Fragment.skipBlanks_append blank,
      Fragment.skipBlanks_of_isIdentifier named, ofStart, if_neg (named.append_ne_nil _), split,
      Except.ok_bind]
    dsimp only
    have isColon : (':' :: (after ++ (head ++ rest))).head? = some ':' := rfl
    rw [if_neg (not_not.mpr isColon), behind, if_neg (identifier.append_ne_nil rest)]
    have splitHead := Fragment.splitIdentifier_of_isIdentifier identifier
      (fun c first => (stops c first).1)
    rw [splitHead, Except.ok_bind]
    rfl

theorem scan_agree_recase {lead head head' rest : List Char} (isLead : IsLead lead)
    (identifier : IsIdentifier head) (lower : head.map Char.toLower = head'.map Char.toLower)
    (stops : Stops rest) :
    Except.Agree SameContent (scan (lead ++ head ++ rest)) (scan (lead ++ head' ++ rest)) := by
  have identifier' := identifier.recase lower
  obtain ⟨label, column, started⟩ := isLead.ofStart_eq
  have read (head : List Char) (identifier : IsIdentifier head) :=
    codeOfLine_append (List.forall_mem_append.mpr ⟨isLead.isMark, identifier.isMark⟩) rest
  have code := read head identifier
  have code' := read head' identifier'
  rw [scan_eq, scan_eq]
  cases found : codeOfLine rest with
  | error e =>
    rw [found] at code code'
    obtain ⟨_, failed⟩ := code.exists_error
    obtain ⟨_, failed'⟩ := code'.exists_error
    rw [failed, failed']
    exact .error
  | ok behind =>
    rw [found] at code code'
    obtain ⟨_, whole, rfl⟩ := code.exists_ok
    obtain ⟨_, whole', rfl⟩ := code'.exists_ok
    have stopsCode : Stops behind.text := stops.of_codeOfLine found
    rw [whole, whole', Except.ok_bind, Except.ok_bind, Fragment.ofLine, Fragment.ofLine,
      List.append_assoc, List.append_assoc, started head _ identifier stopsCode,
      started head' _ identifier' stopsCode]
    have trails : Trails ⟨column + utf8Length head, behind.text⟩
        ⟨column + utf8Length head', behind.text⟩ := SameText.trails rfl
    refine Except.Agree.map ?_ fun c c' content =>
      congrArg (fun content => (label.map Fragment.text, some content)) content
    exact Clause.ofHead_agree lower trails

/-- The head of a line that scans stands behind its lead. -/
theorem exists_lead {line : List Char} {src : SourceLine} {c : Clause}
    (scanned : scan line = .ok src) (clause : src.clause = some c) :
    ∃ lead rest, line = lead ++ c.head.text ++ rest ∧ IsLead lead ∧ IsIdentifier c.head.text ∧
      Stops rest := by
  rw [scan_eq] at scanned
  obtain ⟨code, found, started⟩ := Except.bind_eq_ok_iff.mp scanned
  obtain ⟨text, foundText, rfl⟩ := Except.map_eq_ok_iff.mp found
  obtain ⟨comment, rfl, isComment⟩ := codeText_prefix foundText
  have marks := isComment.marks
  obtain ⟨blanks, blank, whole⟩ := (Fragment.ofLine text).exists_blanks
  generalize (Fragment.ofLine text).skipBlanks = start at started whole
  change text = blanks ++ start.text at whole
  rw [ofStart] at started
  split at started
  · cases started
    cases clause
  · next more =>
    obtain ⟨⟨word, rest⟩, split, started⟩ := Except.bind_eq_ok_iff.mp started
    obtain ⟨cut, identifier, -⟩ := Fragment.splitIdentifier_eq_ok more split
    dsimp only at started
    split at started
    · obtain ⟨c', made, same⟩ := Except.bind_eq_ok_iff.mp started
      cases same
      cases clause
      have head := (Clause.ofHead_eq_ok made).1
      rw [head]
      refine ⟨blanks, rest.text ++ comment, ?_, .blanks blank, identifier, .of_ofHead made marks⟩
      rw [whole, cut, List.append_assoc, List.append_assoc, List.append_assoc]
    · next colon =>
      split at started
      · cases started
        cases clause
      · next more =>
        obtain ⟨⟨head, behind⟩, split, started⟩ := Except.bind_eq_ok_iff.mp started
        obtain ⟨c', made, same⟩ := Except.bind_eq_ok_iff.mp started
        cases same
        cases clause
        obtain ⟨cutHead, identifierHead, -⟩ := Fragment.splitIdentifier_eq_ok more split
        obtain ⟨blanks', blank', wholeHead⟩ := (rest.drop 1).exists_blanks
        have label : rest.text = ':' :: (blanks' ++ (head.text ++ behind.text)) := by
          obtain ⟨tail, same⟩ := List.head?_eq_some_iff.mp (not_not.mp colon)
          have tailText : (rest.drop 1).text = tail := congrArg (List.drop 1) same
          rw [same, ← tailText, wholeHead, cutHead]
        rw [(Clause.ofHead_eq_ok made).1]
        refine ⟨blanks ++ word.text ++ ':' :: blanks', behind.text ++ comment, ?_,
          .label blank identifier blank', identifierHead, .of_ofHead made marks⟩
        rw [whole, cut, label]
        simp only [List.append_assoc, List.cons_append]

end SourceLine

end RobotMachine
