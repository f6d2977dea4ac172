import RobotMachine.Proofs.AlikeLines

/-!
# Ends and starts of a line

A line has the same content with a comment or a carriage return behind it, and with blanks in front
of it. A line of blanks and a comment has no content.

* `SourceLine.scan_agree_return`, `SourceLine.scan_comment`: what stands at the end of a line.
* `SourceLine.scan_agree_indent`: what stands in front of it.
* `SourceLine.IsBlankLine.scan_eq`: lines without content.
-/

namespace RobotMachine

open Fragment (SameText Trails)

/-! ## Characters -/

theorem isMark_of_isAsciiBlank {c : Char} (blank : isAsciiBlank c = true) : isMark c = false :=
  isMark_of_holds blank rfl

/-! ## Code and comments -/

theorem codeText_agree (quoting : Quoting) (opened opened' column column' : Nat)
    (text : List Char) :
    Except.Agree Eq (codeText quoting opened column text)
      (codeText quoting opened' column' text) := by
  induction text generalizing quoting opened opened' column column' with
  | nil => cases quoting <;> first | exact .ok rfl | exact .error
  | cons c text ih =>
    rw [codeText, codeText]
    split
    · exact .ok rfl
    · exact (ih ..).bind fun _ _ equal => .ok (by rw [equal])

/-- A semicolon behind the text begins a comment, in which nothing else matters. -/
theorem codeText_comment {quoting : Quoting} {opened column : Nat} {front code : List Char}
    (found : codeText quoting opened column front = .ok code) (text : List Char) :
    codeText quoting opened column (front ++ ';' :: text) = .ok code := by
  induction front generalizing quoting opened column code with
  | nil =>
    cases quoting with
    | outside =>
      rw [List.nil_append, codeText, if_pos ⟨rfl, .inl rfl⟩]
      exact found
    | inside | escaped => cases found
  | cons c front ih =>
    have slash : (front ++ ';' :: text).head? = some '/' ↔ front.head? = some '/' := by
      cases front with
      | nil =>
        have differs : ';' ≠ '/' := by decide
        exact iff_of_false (fun same => differs (Option.some.inj same)) (by decide)
      | cons => exact Iff.rfl
    rw [codeText] at found
    simp only [List.cons_append, codeText, slash]
    split at found
    · next comment =>
      rw [if_pos comment]
      exact found
    · next noComment =>
      obtain ⟨rest, foundRest, same⟩ := Except.bind_eq_ok_iff.mp found
      rw [if_neg noComment, ih foundRest]
      exact same

/-- A carriage return does not close the literal around a place. -/
def Quoting.OutlastsReturn (quoting : Quoting) : Prop :=
  ∀ quote, quoting = .inside quote ∨ quoting = .escaped quote → quote ≠ '\r'

theorem Quoting.outlastsReturn_outside : Quoting.outside.OutlastsReturn := by
  rintro quote (same | same) <;> cases same

theorem Quoting.OutlastsReturn.next {quoting : Quoting} (outlasts : quoting.OutlastsReturn)
    (c : Char) : (quoting.next c).OutlastsReturn := by
  cases quoting with
  | outside =>
    rw [Quoting.next]
    split
    · next quote =>
      rintro d (same | same)
      · cases same
        rintro rfl
        exact absurd quote (by decide)
      · cases same
    · exact outlastsReturn_outside
  | inside quote =>
    have differs : quote ≠ '\r' := outlasts quote (.inl rfl)
    rw [Quoting.next]
    split
    · rintro d (same | same)
      · cases same
      · cases same
        exact differs
    · split
      · exact outlastsReturn_outside
      · exact outlasts
  | escaped quote =>
    rintro d (same | same)
    · cases same
      exact outlasts quote (.inr rfl)
    · cases same

/-- A carriage return behind the text is part of a comment, or ends up behind the code. -/
theorem codeText_return {quoting : Quoting} (outlasts : quoting.OutlastsReturn)
    (opened column : Nat) (text : List Char) :
    Except.Agree (fun code code' => code' = code ∨ code' = code ++ ['\r'])
      (codeText quoting opened column text) (codeText quoting opened column (text ++ ['\r'])) := by
  induction text generalizing quoting opened column with
  | nil =>
    cases quoting with
    | outside => exact .ok (.inr rfl)
    | inside quote =>
      have differs : '\r' ≠ quote := (outlasts quote (.inl rfl)).symm
      have stays : (Quoting.inside quote).next '\r' = .inside quote := by
        rw [Quoting.next, if_neg (by decide), if_neg differs]
      have noComment : ¬(Quoting.inside quote = .outside ∧
          ('\r' = ';' ∨ '\r' = '/' ∧ [].head? = some '/')) := by
        intro comment
        cases comment.1
      rw [List.nil_append, codeText, codeText, if_neg noComment, stays]
      exact .error
    | escaped quote => exact .error
  | cons c text ih =>
    have slash : (text ++ ['\r']).head? = some '/' ↔ text.head? = some '/' := by
      cases text with
      | nil => exact iff_of_false (by decide) (by decide)
      | cons => exact Iff.rfl
    simp only [List.cons_append, codeText, slash]
    split
    · exact .ok (.inl rfl)
    · refine (ih (outlasts.next c) _ _).bind fun code code' same => .ok ?_
      rcases same with rfl | rfl
      · exact .inl rfl
      · exact .inr rfl

/-! ## Heads and operands -/

namespace Fragment

variable {f f' : Fragment}

theorem skipBlanks_append {blanks : List Char} (blank : ∀ c ∈ blanks, isAsciiBlank c = true)
    (column : Nat) (text : List Char) :
    skipBlanks ⟨column, blanks ++ text⟩ = skipBlanks ⟨column + utf8Length blanks, text⟩ := by
  have dropped : (blanks ++ text).dropWhile isAsciiBlank = text.dropWhile isAsciiBlank :=
    List.dropWhile_append_of_pos blank
  have taken : (blanks ++ text).takeWhile isAsciiBlank = blanks ++ text.takeWhile isAsciiBlank :=
    List.takeWhile_append_of_pos blank
  rw [skipBlanks, dropWhile, dropped, taken, utf8Length_append, ← Nat.add_assoc]
  rfl

/-- Blanks at the end of a text are all that is left of it if there is nothing else, and stay behind
what is left otherwise. -/
theorem Trails.skipBlanks (trails : f.Trails f') :
    f.skipBlanks.text = [] ∧ f'.skipBlanks.text = [] ∨
      f.skipBlanks.text ≠ [] ∧ f.skipBlanks.Trails f'.skipBlanks := by
  obtain ⟨tail, blank, text⟩ := trails
  have left : f'.skipBlanks.text =
      if f.skipBlanks.text.isEmpty then [] else f.skipBlanks.text ++ tail := by
    change f'.text.dropWhile isAsciiBlank =
      if (f.text.dropWhile isAsciiBlank).isEmpty then [] else _
    have none : tail.dropWhile isAsciiBlank = [] := List.dropWhile_eq_nil_iff.mpr blank
    rw [text, List.dropWhile_append, none]
    rfl
  cases empty : f.skipBlanks.text.isEmpty with
  | true =>
    rw [empty, if_pos rfl] at left
    exact .inl ⟨List.isEmpty_iff.mp empty, left⟩
  | false =>
    rw [empty, if_neg Bool.false_ne_true] at left
    refine .inr ⟨fun none => ?_, tail, blank, left⟩
    rw [none] at empty
    cases empty

theorem splitIdentifier_agree (trails : f.Trails f') (more : f.text ≠ []) :
    Except.Agree (fun parts parts' => parts.1.SameText parts'.1 ∧ parts.2.Trails parts'.2)
      f.splitIdentifier f'.splitIdentifier := by
  obtain ⟨column, text⟩ := f
  obtain ⟨column', text'⟩ := f'
  obtain ⟨tail, blank, same⟩ := trails
  obtain ⟨c, text, rfl⟩ := List.exists_cons_of_ne_nil more
  change text' = c :: text ++ tail at same
  subst same
  obtain ⟨noWord, whole⟩ := takeWhile_isIdentifierChar_of_stops fun d first =>
    isIdentifierChar_of_isAsciiBlank (blank d (List.mem_of_head? first))
  simp only [splitIdentifier, List.cons_append]
  split
  · refine .ok ⟨?_, tail, blank, ?_⟩
    · change (c :: text).takeWhile _ = (c :: text ++ tail).takeWhile _
      rw [List.takeWhile_append, noWord, List.append_nil]
      split
      · next all =>
        exact (List.takeWhile_prefix _).eq_of_length all
      · rfl
    · change (c :: text ++ tail).dropWhile _ = (c :: text).dropWhile _ ++ tail
      rw [List.dropWhile_append, whole]
      split
      · next empty => rw [List.isEmpty_iff.mp empty, List.nil_append]
      · rfl
  · exact .error

theorem Trails.ne_nil (trails : f.Trails f') (more : f.text ≠ []) : f'.text ≠ [] := by
  obtain ⟨tail, -, text⟩ := trails
  rw [text]
  exact List.append_ne_nil_of_left_ne_nil more tail

theorem Trails.head?_colon_iff (trails : f.Trails f') :
    f.text.head? = some ':' ↔ f'.text.head? = some ':' := by
  obtain ⟨tail, blank, text⟩ := trails
  rw [text]
  cases f.text with
  | cons => exact Iff.rfl
  | nil =>
    refine iff_of_false nofun fun colon => ?_
    exact absurd (blank ':' (List.mem_of_head? colon)) (by decide)

theorem Trails.drop_one (trails : f.Trails f') (more : f.text ≠ []) :
    (f.drop 1).Trails (f'.drop 1) := by
  obtain ⟨tail, blank, text⟩ := trails
  refine ⟨tail, blank, ?_⟩
  change f'.text.drop 1 = f.text.drop 1 ++ tail
  rw [text, List.drop_append_of_le_length (List.length_pos_iff.mpr more)]

end Fragment

theorem Clause.ofHead_agree {head head' rest rest' : Fragment}
    (lower : head.text.map Char.toLower = head'.text.map Char.toLower)
    (trails : rest.Trails rest') :
    Except.Agree (fun c c' => c.content = c'.content) (ofHead head rest) (ofHead head' rest') := by
  have content {operands operands' : List Fragment}
      (same : List.Forall₂ SameText operands operands') :
      Clause.content ⟨head, operands⟩ = Clause.content ⟨head', operands'⟩ :=
    congrArg₂ Prod.mk lower (forall₂_sameText_iff.mp same)
  have operands := Fragment.splitOperands_agree trails
  obtain ⟨column, text⟩ := rest
  obtain ⟨column', text'⟩ := rest'
  obtain ⟨tail, blank, rfl⟩ := trails
  cases text with
  | cons c text =>
    simp only [ofHead, List.cons_append]
    split
    · exact operands.map fun _ _ same => content same
    · exact .error
  | nil =>
    cases tail with
    | nil => exact .ok (content .nil)
    | cons c tail =>
      have isBlank := (List.forall_mem_cons.mp blank).1
      obtain ⟨_, split, same⟩ := operands.exists_ok
      simp only [ofHead, List.nil_append, isBlank, if_true] at split ⊢
      rw [split]
      exact .ok (content same)

namespace SourceLine

/-! ## Lines -/

/-- What a line says from its first character on that is no blank. -/
def ofStart (start : Fragment) : Except LineError SourceLine := do
  if start.text = [] then return {}
  let (word, rest) ← start.splitIdentifier
  if rest.text.head? ≠ some ':' then
    let clause ← Clause.ofHead word rest
    return { clause }
  let start := (rest.drop 1).skipBlanks
  if start.text = [] then return { label := word }
  let (head, rest) ← start.splitIdentifier
  let clause ← Clause.ofHead head rest
  return { label := word, clause }

theorem scan_eq (line : List Char) :
    scan line = codeOfLine line >>= fun code => ofStart code.skipBlanks := rfl

/-- The lines have the same content. -/
def SameContent (src src' : SourceLine) : Prop :=
  src.content = src'.content

variable {f f' : Fragment}

/-- Where a line starts, and blanks at its end, are insignificant. -/
theorem ofStart_agree (trails : f.Trails f') :
    Except.Agree SameContent (ofStart f.skipBlanks) (ofStart f'.skipBlanks) := by
  simp only [ofStart]
  rcases trails.skipBlanks with ⟨none, none'⟩ | ⟨more, trails⟩
  · rw [if_pos none, if_pos none']
    exact .ok rfl
  rw [if_neg more, if_neg (trails.ne_nil more)]
  refine (Fragment.splitIdentifier_agree trails more).bind fun parts parts' same => ?_
  obtain ⟨word, rest⟩ := parts
  obtain ⟨word', rest'⟩ := parts'
  obtain ⟨sameWord, trailsRest⟩ := same
  dsimp only at sameWord trailsRest ⊢
  have label : word.text = word'.text := sameWord
  by_cases colon : rest.text.head? = some ':'
  · have moreRest : rest.text ≠ [] := by
      intro none
      rw [none] at colon
      cases colon
    rw [if_neg (not_not.mpr colon), if_neg (not_not.mpr (trailsRest.head?_colon_iff.mp colon))]
    rcases (trailsRest.drop_one moreRest).skipBlanks with ⟨done, done'⟩ | ⟨more, trails⟩
    · rw [if_pos done, if_pos done']
      exact .ok (congrArg (fun text => (some text, none)) label)
    · rw [if_neg more, if_neg (trails.ne_nil more)]
      refine (Fragment.splitIdentifier_agree trails more).bind fun parts parts' same => ?_
      obtain ⟨head, behind⟩ := same
      have clauses := Clause.ofHead_agree (congrArg (List.map Char.toLower) head) behind
      refine clauses.bind fun c c' content => .ok ?_
      exact congrArg₂ (fun text content => (some text, some content)) label content
  · rw [if_pos colon, if_pos (mt trailsRest.head?_colon_iff.mpr colon)]
    exact (Clause.ofHead_agree (congrArg _ label) trailsRest).bind fun c c' content =>
      .ok (congrArg (fun content => (none, some content)) content)

/-! ### Ends of lines -/

theorem scan_agree_return (line : List Char) :
    Except.Agree SameContent (scan line) (scan (line ++ ['\r'])) := by
  rw [scan_eq, scan_eq]
  refine Except.Agree.bind (R := Trails) ?_ fun code code' trails => ofStart_agree trails
  refine (codeText_return Quoting.outlastsReturn_outside 1 1 line).map fun code code' same => ?_
  rcases same with rfl | rfl
  · exact SameText.trails rfl
  · exact ⟨['\r'], List.forall_mem_singleton.mpr rfl, rfl⟩

theorem scan_comment {line : List Char} {src : SourceLine} (scanned : scan line = .ok src)
    (text : List Char) : scan (line ++ ';' :: text) = .ok src := by
  rw [scan_eq] at scanned ⊢
  obtain ⟨code, found, started⟩ := Except.bind_eq_ok_iff.mp scanned
  obtain ⟨visible, foundText, rfl⟩ := Except.map_eq_ok_iff.mp found
  rw [codeOfLine, codeText_comment foundText]
  exact started

/-! ### Starts of lines -/

/-- What is read behind text without marks is the same as without that text. -/
theorem codeOfLine_append {front : List Char} (noMark : ∀ c ∈ front, isMark c = false)
    (line : List Char) :
    Except.Agree (fun code code' => code' = Fragment.ofLine (front ++ code.text))
      (codeOfLine line) (codeOfLine (front ++ line)) := by
  obtain ⟨opened, column, passed⟩ := codeText_append noMark 1 1 line
  rw [codeOfLine, codeOfLine, passed]
  have agree := codeText_agree .outside 1 opened 1 column line
  generalize codeText .outside 1 1 line = found, codeText .outside opened column line = found'
    at agree
  cases agree with
  | ok same => exact .ok (congrArg (fun text => Fragment.ofLine (front ++ text)) same.symm)
  | error => exact .error

theorem scan_agree_indent {blanks : List Char} (blank : ∀ c ∈ blanks, isAsciiBlank c = true)
    (line : List Char) : Except.Agree SameContent (scan line) (scan (blanks ++ line)) := by
  have noMark : ∀ c ∈ blanks, isMark c = false := fun c member =>
    isMark_of_isAsciiBlank (blank c member)
  rw [scan_eq, scan_eq]
  refine (codeOfLine_append noMark line).bind fun code code' same => ?_
  rw [same, Fragment.ofLine, Fragment.skipBlanks_append blank]
  exact ofStart_agree (SameText.trails rfl)

/-! ### Lines without content -/

/-- Blanks, and maybe a comment behind them. -/
inductive IsBlankLine : List Char → Prop
  | empty {blanks : List Char} : (∀ c ∈ blanks, isAsciiBlank c = true) → IsBlankLine blanks
  | semicolon {blanks : List Char} (text : List Char) : (∀ c ∈ blanks, isAsciiBlank c = true) →
    IsBlankLine (blanks ++ ';' :: text)
  | slashes {blanks : List Char} (text : List Char) : (∀ c ∈ blanks, isAsciiBlank c = true) →
    IsBlankLine (blanks ++ '/' :: '/' :: text)

theorem IsBlankLine.scan_eq {line : List Char} (isBlank : IsBlankLine line) :
    ∃ src, scan line = .ok src ∧ src.content = blankContent := by
  have indent {blanks line : List Char} (blank : ∀ c ∈ blanks, isAsciiBlank c = true)
      (scanned : scan line = .ok {}) :
      ∃ src, scan (blanks ++ line) = .ok src ∧ src.content = blankContent := by
    have agree := scan_agree_indent blank line
    rw [scanned] at agree
    obtain ⟨src, scanned', content⟩ := agree.exists_ok
    exact ⟨src, scanned', content.symm⟩
  cases isBlank with
  | empty blank =>
    have nothing : scan [] = .ok {} := rfl
    have whole := indent blank nothing
    rwa [List.append_nil] at whole
  | semicolon text blank => exact indent blank rfl
  | slashes text blank => exact indent blank rfl

end SourceLine

end RobotMachine
