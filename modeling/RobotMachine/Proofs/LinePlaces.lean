import RobotMachine.Assembly.Operand
import RobotMachine.Proofs.Outcome

/-!
# Places in a line

A line is only ever cut apart, and a fragment keeps the column where it stands. So whatever is read
off a line, and whatever is wrong with it, has the column of some place in the line: in front of one
of its characters, or behind the last.

* `IsColumnOf`: the columns of a line.
* `SourceLine.scan_ends`: what scanning finds in a line stands in it, and so does its error.
* `Expression.parse_ends`, `Expression.failsIn_evaluate`, `Operand.parse_ends`: the same for reading
  and evaluating what was found.
-/

namespace RobotMachine

/-- The column of a place in a line: 1 plus the number of bytes in front of it. -/
def IsColumnOf (line : List Char) (column : Nat) : Prop :=
  ∃ before after, line = before ++ after ∧ column = 1 + utf8Length before

/-- The error is about a place in the line. -/
def LineError.StandsIn (e : LineError) (line : List Char) : Prop :=
  IsColumnOf line e.column

/-- If the operation fails, it is about a place in the line. -/
abbrev FailsIn {α : Type} (line : List Char) (x : Except LineError α) : Prop :=
  Except.Ends (fun _ => True) (·.StandsIn line) x

variable {line : List Char}

theorem FailsIn.map {α β : Type} {x : Except LineError α} (fails : FailsIn line x) (f : α → β) :
    FailsIn line (x.map f) :=
  Except.Ends.map fails fun _ _ => trivial

theorem FailsIn.mapM {α β : Type} {f : α → Except LineError β} {as : List α}
    (each : ∀ a ∈ as, FailsIn line (f a)) : FailsIn line (as.mapM f) :=
  (Except.Ends.mapM each).weaken fun _ _ => trivial

/-! ## Fragments -/

theorem dropEndWhile_isPrefix (p : Char → Bool) (text : List Char) : dropEndWhile p text <+: text := by
  have suffix : text.reverse.dropWhile p <:+ text.reverse := List.dropWhile_suffix p
  rw [← List.reverse_prefix, List.reverse_reverse] at suffix
  exact suffix

namespace Fragment.IsPartOf

variable {f : Fragment}

/-- The front of what stands in a line does too. -/
theorem of_isPrefix (h : f.IsPartOf line) {front : Fragment} (start : front.column = f.column)
    (isPrefix : front.text <+: f.text) : front.IsPartOf line := by
  obtain ⟨before, after, rfl, column⟩ := h
  obtain ⟨rest, split⟩ := isPrefix
  refine ⟨before, rest ++ after, ?_, start.trans column⟩
  rw [← split, List.append_assoc, List.append_assoc, List.append_assoc]

theorem dropLast (h : f.IsPartOf line) : f.dropLast.IsPartOf line :=
  h.of_isPrefix rfl (List.dropLast_prefix f.text)

theorem trim (h : f.IsPartOf line) : f.trim.IsPartOf line :=
  (h.dropWhile isBlank).of_isPrefix rfl (dropEndWhile_isPrefix isBlank _)

theorem isColumnOf (h : f.IsPartOf line) : IsColumnOf line f.column := by
  obtain ⟨before, after, rfl, column⟩ := h
  exact ⟨before, f.text ++ after, List.append_assoc _ _ _, column⟩

end Fragment.IsPartOf

/-! ## Lines -/

/-- The code of a line stands at its start, and a literal that does not end is blamed on the quote
that opened it. -/
theorem codeText_ends {quoting : Quoting} {opened column : Nat} {before text : List Char}
    (split : line = before ++ text) (place : column = 1 + utf8Length before)
    (isOpened : quoting ≠ .outside → IsColumnOf line opened) :
    Except.Ends (· <+: text) (·.StandsIn line) (codeText quoting opened column text) := by
  induction text generalizing quoting opened column before with
  | nil =>
    cases quoting with
    | outside => exact .ok List.prefix_rfl
    | inside | escaped => exact .error (isOpened nofun)
  | cons c text ih =>
    rw [codeText]
    split
    · exact .ok (List.nil_prefix)
    · have here : IsColumnOf line column := ⟨before, c :: text, split, place⟩
      have behind : line = (before ++ [c]) ++ text := by rw [split, List.append_cons]
      have next : column + c.utf8Size = 1 + utf8Length (before ++ [c]) := by
        simp [place, Nat.add_assoc]
      refine (ih behind next fun _ => ?_).bind fun rest isPrefix =>
        .ok (List.cons_prefix_cons.mpr ⟨rfl, isPrefix⟩)
      split
      · exact here
      · next literal => exact isOpened literal

theorem codeOfLine_ends (line : List Char) :
    Except.Ends (·.IsPartOf line) (·.StandsIn line) (codeOfLine line) := by
  have outside : Quoting.outside ≠ .outside → IsColumnOf line 1 := fun literal => absurd rfl literal
  have split : line = [] ++ line := rfl
  refine (codeText_ends split rfl outside).map fun code isPrefix => ?_
  exact (Fragment.isPartOf_ofLine line).of_isPrefix rfl isPrefix

theorem commaPieces_isPrefix (quoting : Quoting) (depth column : Nat) (text : List Char) :
    (commaPieces quoting depth column text).1.column = column ∧
      (commaPieces quoting depth column text).1.text <+: text := by
  cases text with
  | nil => exact ⟨rfl, List.prefix_rfl⟩
  | cons c text =>
    rw [commaPieces]
    split
    · exact ⟨rfl, List.nil_prefix⟩
    · exact ⟨rfl, List.cons_prefix_cons.mpr ⟨rfl, (commaPieces_isPrefix _ _ _ text).2⟩⟩

/-- The pieces between commas stand in the line that the text stands in. -/
theorem isPartOf_commaPieces {f : Fragment} (quoting : Quoting) (depth : Nat)
    (part : f.IsPartOf line) :
    ∀ piece ∈ (commaPieces quoting depth f.column f.text).1 ::
      (commaPieces quoting depth f.column f.text).2, piece.IsPartOf line := by
  obtain ⟨column, text⟩ := f
  induction text generalizing quoting depth column with
  | nil => exact List.forall_mem_singleton.mpr part
  | cons c text ih =>
    have behind : Fragment.IsPartOf ⟨column + c.utf8Size, text⟩ line := part.drop 1
    obtain ⟨firstColumn, firstText⟩ := commaPieces_isPrefix quoting depth column (c :: text)
    refine List.forall_mem_cons.mpr ⟨?_, ?_⟩
    · exact part.of_isPrefix firstColumn firstText
    · rw [commaPieces]
      split
      · next comma =>
        rw [comma.2.2] at behind
        exact ih .outside 0 _ behind
      · exact (List.forall_mem_cons.mp (ih _ _ _ behind)).2

namespace Fragment

variable {f : Fragment}

theorem toOperand_ends (part : f.IsPartOf line) :
    Except.Ends (·.IsPartOf line) (·.StandsIn line) f.toOperand := by
  rw [toOperand]
  split
  · exact .error part.trim.isColumnOf
  · exact .ok part.trim

theorem splitOperands_ends (part : f.IsPartOf line) :
    Except.Ends (∀ o ∈ ·, o.IsPartOf line) (·.StandsIn line) f.splitOperands := by
  rw [splitOperands]
  split
  · exact .ok nofun
  · exact .mapM fun piece member => toOperand_ends (isPartOf_commaPieces _ _ part piece member)

theorem splitIdentifier_ends (part : f.IsPartOf line) :
    Except.Ends (fun cut => cut.1.IsPartOf line ∧ cut.2.IsPartOf line) (·.StandsIn line)
      f.splitIdentifier := by
  rw [splitIdentifier]
  split
  · exact .ok ⟨part, part⟩
  · split
    · exact .ok ⟨part.takeWhile _, part.dropWhile _⟩
    · exact .error part.isColumnOf

end Fragment

/-- The head and the operands stand in the line. -/
structure Clause.IsCutFrom (c : Clause) (line : List Char) : Prop where
  head : c.head.IsPartOf line
  operands : ∀ f ∈ c.operands, f.IsPartOf line

/-- The label and the clause stand in the line. -/
structure SourceLine.IsCutFrom (src : SourceLine) (line : List Char) : Prop where
  label : ∀ f, src.label = some f → f.IsPartOf line
  clause : ∀ c, src.clause = some c → c.IsCutFrom line

theorem Clause.ofHead_ends {head rest : Fragment} (partHead : head.IsPartOf line)
    (partRest : rest.IsPartOf line) :
    Except.Ends (·.IsCutFrom line) (·.StandsIn line) (ofHead head rest) := by
  rw [ofHead]
  split
  · exact .ok ⟨partHead, fun _ member => absurd member List.not_mem_nil⟩
  · split
    · exact (Fragment.splitOperands_ends partRest).map fun _ parts => ⟨partHead, parts⟩
    · exact .error partRest.isColumnOf

/-- What scanning finds in a line stands in the line, and so does its error. -/
theorem SourceLine.scan_ends (line : List Char) :
    Except.Ends (·.IsCutFrom line) (·.StandsIn line) (scan line) := by
  rw [scan]
  refine (codeOfLine_ends line).bind fun code partCode => ?_
  have partStart : code.skipBlanks.IsPartOf line := partCode.dropWhile _
  dsimp only
  split
  · exact .ok ⟨nofun, nofun⟩
  refine (Fragment.splitIdentifier_ends partStart).bind fun ⟨word, rest⟩ ⟨partWord, partRest⟩ => ?_
  dsimp only
  split
  · refine (Clause.ofHead_ends partWord partRest).bind fun c cut => .ok ⟨nofun, ?_⟩
    rintro _ ⟨⟩
    exact cut
  have partBehind : (rest.drop 1).skipBlanks.IsPartOf line := (partRest.drop 1).dropWhile _
  split
  · refine .ok ⟨?_, nofun⟩
    rintro _ ⟨⟩
    exact partWord
  refine (Fragment.splitIdentifier_ends partBehind).bind fun ⟨head, rest⟩ ⟨partHead, partRest⟩ => ?_
  refine (Clause.ofHead_ends partHead partRest).bind fun c cut => .ok ⟨?_, ?_⟩
  · rintro _ ⟨⟩
    exact partWord
  · rintro _ ⟨⟩
    exact cut

/-! ## Literals -/

theorem utf8Size_of_isSome_escaped? {c : Char} (escapes : (escaped? c).isSome = true) :
    c.utf8Size = 1 := by
  unfold escaped? at escapes
  split at escapes
  all_goals first
    | rfl
    | cases escapes

/-- An error in a string stands at its opening quote or in its text. -/
theorem failsIn_stringBytes {opened column : Nat} {text : List Char} (isOpened : IsColumnOf line opened)
    (part : Fragment.IsPartOf ⟨column, text⟩ line) :
    FailsIn line (stringBytes opened column text) := by
  fun_induction stringBytes opened column text with
  | case1 => exact .error isOpened
  | case2 => exact .ok trivial
  | case3 column text more =>
    have behind : Fragment.IsPartOf ⟨column + 1, text⟩ line := part.drop 1
    exact .error behind.isColumnOf
  | case4 => exact .error part.isColumnOf
  | case5 => exact .error part.isColumnOf
  | case6 column c text e escaped ih =>
    have size : c.utf8Size = 1 := utf8Size_of_isSome_escaped? (by rw [escaped]; rfl)
    have behind : Fragment.IsPartOf ⟨column + (1 + (c.utf8Size + 0)), text⟩ line := part.drop 2
    rw [size] at behind
    exact (ih behind).map _
  | case7 column c text noQuote noEnd noEscape ih =>
    have behind : Fragment.IsPartOf ⟨column + c.utf8Size, text⟩ line := part.drop 1
    exact (ih behind).map _

namespace Fragment

variable {f : Fragment}

theorem failsIn_toStringBytes (part : f.IsPartOf line) (opens : f.text.head? = some '"') :
    FailsIn line f.toStringBytes := by
  obtain ⟨column, text⟩ := f
  obtain ⟨rest, rfl⟩ := List.head?_eq_some_iff.mp opens
  have behind : Fragment.IsPartOf ⟨column + 1, rest⟩ line := part.drop 1
  exact failsIn_stringBytes part.isColumnOf behind

theorem failsIn_toNumber (part : f.IsPartOf line) :
    FailsIn line f.toNumber := by
  simp only [toNumber]
  split
  · exact .ok trivial
  · exact .error part.isColumnOf
  · exact .error part.isColumnOf

theorem failsIn_characterLiteral (part : f.IsPartOf line) :
    FailsIn line f.characterLiteral := by
  rw [characterLiteral]
  split
  · exact .error part.isColumnOf
  · exact .error part.isColumnOf
  · split
    · exact .error part.isColumnOf
    · split
      · exact .ok trivial
      · exact .error part.isColumnOf
  · split
    · exact .ok trivial
    · exact .error part.isColumnOf

/-! ## Expressions -/

theorem failsIn_term (part : f.IsPartOf line) :
    FailsIn line f.term := by
  rw [term]
  split
  · exact .error part.isColumnOf
  · split
    · exact (failsIn_characterLiteral part).map _
    · split
      · have number := failsIn_toNumber (part.takeWhile isIdentifierChar)
        exact FailsIn.map (number.bind fun _ _ => .ok trivial) _
      · split
        · exact .ok trivial
        · exact .error part.isColumnOf

/-- Each term stands in the line, and an error in them does. -/
theorem terms_ends {negative : Bool} (part : f.IsPartOf line) :
    Except.Ends (∀ t ∈ ·, IsColumnOf line t.column) (·.StandsIn line) (f.terms negative) := by
  fun_induction Fragment.terms negative f with
  | case1 => exact .error part.isColumnOf
  | case2 negative f more minus ih => exact ih ((part.drop 1).dropWhile _)
  | case3 negative f more minus plus ih => exact ih ((part.drop 1).dropWhile _)
  | case4 negative f more minus plus e failed =>
    have ends := failsIn_term part
    rw [failed] at ends
    exact .error ends.of_error
  | case5 negative f more minus plus value length found t rest empty =>
    exact .ok (List.forall_mem_singleton.mpr part.isColumnOf)
  | case6 negative f more minus plus value length found t rest c text split operator ih =>
    have partRest : rest.IsPartOf line := (part.drop length).dropWhile _
    exact (ih ((partRest.drop 1).dropWhile _)).map fun ts others =>
      List.forall_mem_cons.mpr ⟨part.isColumnOf, others⟩
  | case7 negative f more minus plus value length found rest c text split operator =>
    have partRest : rest.IsPartOf line := (part.drop length).dropWhile _
    exact .error partRest.isColumnOf

end Fragment

namespace Expression

/-- The expression and its terms stand in the line. -/
structure StandsIn (e : Expression) (line : List Char) : Prop where
  column : IsColumnOf line e.column
  terms : ∀ t ∈ e.terms, IsColumnOf line t.column

variable {e : Expression}

theorem parse_ends {f : Fragment} (part : f.IsPartOf line) :
    Except.Ends (·.StandsIn line) (·.StandsIn line) (parse f) := by
  have start : f.skipBlanks.IsPartOf line := part.dropWhile _
  exact (Fragment.terms_ends start).map fun ts columns => ⟨start.isColumnOf, columns⟩

theorem failsIn_sum {column : Nat} {ts : List Term} (place : IsColumnOf line column)
    (terms : ∀ t ∈ ts, IsColumnOf line t.column) (table : SymbolTable) (total : Int) :
    FailsIn line (sum table column total ts) := by
  induction ts generalizing total with
  | nil => exact .ok trivial
  | cons t ts ih =>
    rw [List.forall_mem_cons] at terms
    have head : FailsIn line (t.magnitude table) := by
      rw [Term.magnitude]
      split
      · exact .ok trivial
      · split
        · exact .ok trivial
        · exact .error terms.1
    rw [sum]
    refine Except.Ends.bind (head.map _) fun v _ => ?_
    split
    · exact ih terms.2 _
    · exact .error place

/-- An expression has a value, or fails at one of its places. -/
theorem failsIn_evaluate (stands : e.StandsIn line) (table : SymbolTable) :
    FailsIn line (e.evaluate table) :=
  failsIn_sum stands.column stands.terms table 0

end Expression

/-! ## Operands -/

theorem Fragment.failsIn_toRegister? {f : Fragment} (part : f.IsPartOf line) :
    FailsIn line f.toRegister? := by
  rw [toRegister?]
  split
  · exact .ok trivial
  · split
    · split
      · exact .error part.isColumnOf
      · exact .ok trivial
    · exact .ok trivial

namespace Operand

/-- The expression in the operand stands in the line. -/
def StandsIn (o : Operand) (line : List Char) : Prop :=
  ∀ e, o.expression? = some e → e.StandsIn line

theorem ofExpression_ends {f : Fragment} (part : f.IsPartOf line) {make : Expression → Operand}
    (same : ∀ e, (make e).expression? = some e) :
    Except.Ends (Operand.StandsIn · line) (·.StandsIn line) ((Expression.parse f).map make) := by
  refine (Expression.parse_ends part).map fun e stands e' isExpression => ?_
  rw [same] at isExpression
  cases isExpression
  exact stands

theorem ofMemoryParts_ends {opened : Nat} (isOpened : IsColumnOf line opened)
    {parts : List Fragment} (areParts : ∀ f ∈ parts, f.IsPartOf line) :
    Except.Ends (·.StandsIn line) (·.StandsIn line) (ofMemoryParts opened parts) := by
  rw [ofMemoryParts.eq_def]
  split
  · exact .error isOpened
  · next single =>
    have part := areParts single List.mem_cons_self
    split
    · exact ofExpression_ends (part.drop 1) fun _ => rfl
    · refine (Fragment.failsIn_toRegister? part).bind fun base _ => ?_
      split
      · refine .ok fun e isExpression => ?_
        cases isExpression
        exact ⟨part.isColumnOf, nofun⟩
      · exact ofExpression_ends part fun _ => rfl
  · next base offset =>
    have partBase := areParts base List.mem_cons_self
    have partOffset := areParts offset (List.mem_cons_of_mem _ List.mem_cons_self)
    refine (Fragment.failsIn_toRegister? partBase).bind fun register _ => ?_
    split
    · exact .error partBase.isColumnOf
    · split
      · exact ofExpression_ends (partOffset.drop 1) fun _ => rfl
      · exact .error partOffset.isColumnOf
  · next extra others =>
    have part := areParts extra (by simp)
    exact .error part.isColumnOf

/-- What is read as an operand stands in the line, and so does an error in it. -/
theorem parse_ends {f : Fragment} (part : f.IsPartOf line) :
    Except.Ends (·.StandsIn line) (·.StandsIn line) (parse f) := by
  rw [parse]
  split
  · split
    · have inner : (f.drop 1).dropLast.IsPartOf line := (part.drop 1).dropLast
      exact (Fragment.splitOperands_ends inner).bind fun parts areParts =>
        ofMemoryParts_ends part.isColumnOf areParts
    · exact .error part.isColumnOf
  · exact ofExpression_ends (part.drop 1) fun _ => rfl
  · next opens =>
    have literal : FailsIn line f.toStringBytes :=
      Fragment.failsIn_toStringBytes part (by rw [opens]; rfl)
    exact Except.Ends.map literal fun bytes _ => nofun
  · refine (Fragment.failsIn_toRegister? part).bind fun register _ => ?_
    split
    · exact .ok nofun
    · exact ofExpression_ends part fun _ => rfl

/-- The values of an operand, or an error in the expression of the operand. -/
theorem failsIn_evaluate {o : Operand} (stands : o.StandsIn line) (table : SymbolTable) :
    FailsIn line (o.evaluate table) := by
  cases o with
  | register | string => exact .ok trivial
  | immediate e | memoryOffset _ e | memoryAbsolute e | bare e =>
    exact (Expression.failsIn_evaluate (stands e rfl) table).map _

end Operand

end RobotMachine
