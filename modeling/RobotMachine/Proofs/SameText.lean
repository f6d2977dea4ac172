import Mathlib.Data.List.TakeWhile
import RobotMachine.Assembly.Operand
import RobotMachine.Proofs.Outcome

/-!
# Fragments with the same text

Where a fragment stands in its line decides where its errors are reported, and nothing else. What is
read off fragments with the same text at different columns has the same meaning: the same terms,
operands and clauses, but for the columns in them.

* `Expression.parse_agree`, `Expression.evaluate_agree`: expressions.
* `Operand.parse_agree`, `Opcode.select_agree`: operands and the forms that they fit.
* `Clause.ofHead_agree`: clauses. The case of the letters in a head has no meaning either.
-/

namespace RobotMachine

/-! ## Fragments -/

namespace Fragment

/-- The fragments have the same text, wherever they stand. -/
def SameText (f f' : Fragment) : Prop :=
  f.text = f'.text

variable {f f' : Fragment}

namespace SameText

theorem toString_eq (same : f.SameText f') : f.toString = f'.toString :=
  congrArg String.ofList same

theorem drop (same : f.SameText f') (n : Nat) : (f.drop n).SameText (f'.drop n) :=
  congrArg (List.drop n) same

theorem dropLast (same : f.SameText f') : f.dropLast.SameText f'.dropLast :=
  congrArg List.dropLast same

theorem takeWhile (same : f.SameText f') (p : Char → Bool) :
    (f.takeWhile p).SameText (f'.takeWhile p) :=
  congrArg (List.takeWhile p) same

theorem dropWhile (same : f.SameText f') (p : Char → Bool) :
    (f.dropWhile p).SameText (f'.dropWhile p) :=
  congrArg (List.dropWhile p) same

theorem skipBlanks (same : f.SameText f') : f.skipBlanks.SameText f'.skipBlanks :=
  same.dropWhile isAsciiBlank

end SameText

/-- The second fragment has the text of the first one, and maybe ASCII blanks behind it. -/
def Trails (f f' : Fragment) : Prop :=
  ∃ tail, (∀ c ∈ tail, isAsciiBlank c = true) ∧ f'.text = f.text ++ tail

theorem SameText.trails (same : f.SameText f') : f.Trails f' :=
  ⟨[], nofun, same.symm.trans (List.append_nil _).symm⟩

/-! ## Operands of a line -/

theorem dropEndWhile_append {p : Char → Bool} {text tail : List Char}
    (all : ∀ c ∈ tail, p c = true) : dropEndWhile p (text ++ tail) = dropEndWhile p text := by
  rw [dropEndWhile, List.reverse_append, List.dropWhile_append_of_pos, dropEndWhile]
  exact fun c member => all c (List.mem_reverse.mp member)

/-- Blanks behind an operand are trimmed. -/
theorem Trails.trim (trails : f.Trails f') : f.trim.SameText f'.trim := by
  obtain ⟨tail, blank, text⟩ := trails
  have all : ∀ c ∈ tail, isBlank c = true := fun c member =>
    isBlank_of_isAsciiBlank (blank c member)
  change dropEndWhile isBlank (f.text.dropWhile isBlank) =
    dropEndWhile isBlank (f'.text.dropWhile isBlank)
  rw [text, List.dropWhile_append]
  split
  · next empty =>
    have none : tail.dropWhile isBlank = [] := List.dropWhile_eq_nil_iff.mpr all
    rw [List.isEmpty_iff.mp empty, none]
  · rw [dropEndWhile_append all]

theorem toOperand_agree (trails : f.Trails f') :
    Except.Agree SameText f.toOperand f'.toOperand := by
  have trimmed := trails.trim
  rw [toOperand, toOperand, ← (trimmed : f.trim.text = f'.trim.text)]
  split
  · exact .error
  · exact .ok trimmed

end Fragment

open Fragment (SameText Trails)

theorem commaPieces_of_blank (quoting : Quoting) (depth column : Nat) {tail : List Char}
    (blank : ∀ c ∈ tail, isAsciiBlank c = true) :
    commaPieces quoting depth column tail = (⟨column, tail⟩, []) := by
  induction tail generalizing quoting depth column with
  | nil => rfl
  | cons c tail ih =>
    obtain ⟨head, others⟩ := List.forall_mem_cons.mp blank
    have noComma : c ≠ ',' := by
      rintro rfl
      cases head
    rw [commaPieces, if_neg (fun comma => noComma comma.2.2)]
    dsimp only
    rw [ih _ _ _ others]

/-- Blanks at the end of a text end up behind its last piece. -/
theorem commaPieces_agree (quoting : Quoting) (depth column column' : Nat) (text : List Char)
    {tail : List Char} (blank : ∀ c ∈ tail, isAsciiBlank c = true) :
    List.Forall₂ Trails
      ((commaPieces quoting depth column text).1 :: (commaPieces quoting depth column text).2)
      ((commaPieces quoting depth column' (text ++ tail)).1 ::
        (commaPieces quoting depth column' (text ++ tail)).2) := by
  induction text generalizing quoting depth column column' with
  | nil =>
    rw [List.nil_append, commaPieces_of_blank _ _ _ blank]
    exact .cons ⟨tail, blank, rfl⟩ .nil
  | cons c text ih =>
    rw [List.cons_append, commaPieces, commaPieces]
    split
    · exact .cons (Fragment.SameText.trails rfl) (ih ..)
    · obtain ⟨⟨tail', blank', first⟩, others⟩ := List.forall₂_cons.mp
        (ih (quoting.next c) (if quoting = .outside then bracketDepth depth c else depth)
          (column + c.utf8Size) (column' + c.utf8Size))
      exact .cons ⟨tail', blank', congrArg (c :: ·) first⟩ others

variable {f f' : Fragment}

theorem Fragment.splitOperands_agree (trails : f.Trails f') :
    Except.Agree (List.Forall₂ SameText) f.splitOperands f'.splitOperands := by
  obtain ⟨column, text⟩ := f
  obtain ⟨column', text'⟩ := f'
  obtain ⟨tail, blank, rfl⟩ := trails
  have allBlank : (text ++ tail).all isBlank = text.all isBlank := by
    have behind : tail.all isBlank = true :=
      List.all_eq_true.mpr fun c member => isBlank_of_isAsciiBlank (blank c member)
    rw [List.all_append, behind, Bool.and_true]
  rw [splitOperands, splitOperands, allBlank]
  split
  · exact .ok .nil
  · exact .mapM (commaPieces_agree _ _ _ _ _ blank) fun _ _ => toOperand_agree

/-! ## Literals -/

theorem Fragment.toNumber_agree (same : f.SameText f') :
    Except.Agree Eq f.toNumber f'.toNumber := by
  obtain ⟨column, text⟩ := f
  obtain ⟨column', text'⟩ := f'
  cases same
  simp only [toNumber]
  split
  · exact .ok rfl
  · exact .error
  · exact .error

theorem Fragment.characterLiteral_agree (same : f.SameText f') :
    Except.Agree Eq f.characterLiteral f'.characterLiteral := by
  obtain ⟨column, text⟩ := f
  obtain ⟨column', text'⟩ := f'
  cases same
  simp only [characterLiteral]
  split
  · exact .error
  · exact .error
  · split
    · exact .error
    · split
      · exact .ok rfl
      · exact .error
  · split
    · exact .ok rfl
    · exact .error

theorem stringBytes_agree (opened opened' column column' : Nat) (text : List Char) :
    Except.Agree Eq (stringBytes opened column text) (stringBytes opened' column' text) := by
  fun_induction stringBytes opened column text generalizing column' with
  | case1 => exact .error
  | case2 => exact .ok rfl
  | case3 column text more =>
    rw [stringBytes, if_neg more]
    exact .error
  | case4 =>
    rw [stringBytes]
    exact .error
  | case5 column c text none =>
    simp only [stringBytes, none]
    exact .error
  | case6 column c text escaped isEscaped ih =>
    simp only [stringBytes, isEscaped]
    exact (ih _).map fun _ _ same => congrArg _ same
  | case7 column c text noQuote noBackslash noEscape ih =>
    rw [stringBytes]
    · exact (ih _).map fun _ _ same => congrArg _ same
    all_goals assumption

theorem Fragment.toStringBytes_agree (same : f.SameText f') :
    Except.Agree Eq f.toStringBytes f'.toStringBytes := by
  rw [toStringBytes, toStringBytes, ← (same : f.text = f'.text)]
  exact stringBytes_agree ..

/-! ## Expressions -/

/-- The terms have the same sign and the same value or symbol. -/
def Term.Alike (t t' : Term) : Prop :=
  t.negative = t'.negative ∧ t.value = t'.value

/-- The expressions have the same terms but for their columns. -/
def Expression.Alike (e e' : Expression) : Prop :=
  List.Forall₂ Term.Alike e.terms e'.terms

theorem Fragment.term_agree (same : f.SameText f') : Except.Agree Eq f.term f'.term := by
  obtain ⟨column, text⟩ := f
  obtain ⟨column', text'⟩ := f'
  cases same
  simp only [term]
  split
  · exact .error
  · next c text =>
    have same : SameText ⟨column, c :: text⟩ ⟨column', c :: text⟩ := rfl
    split
    · exact (characterLiteral_agree same).map fun _ _ literal => by rw [literal]
    · split
      · have number := toNumber_agree (same.takeWhile isIdentifierChar)
        exact (number.bind fun _ _ equal => .ok (congrArg Int.ofNat equal)).map fun _ _ equal =>
          congrArg (TermValue.number · , _) equal
      · split
        · exact .ok rfl
        · exact .error

/-- The terms of a fragment, with the term at its start as one step. -/
theorem Fragment.terms_eq (negative : Bool) (f : Fragment) :
    f.terms negative =
      if f.text = [] then .error ⟨f.column, .expectedValue⟩
      else if f.text.head? = some '-' then (f.drop 1).skipBlanks.terms (!negative)
      else if f.text.head? = some '+' then (f.drop 1).skipBlanks.terms negative
      else f.term >>= fun (value, length) =>
        let rest := (f.drop length).skipBlanks
        match rest.text with
        | [] => .ok [⟨negative, f.column, value⟩]
        | c :: _ =>
          if c = '+' ∨ c = '-' then
            ((rest.drop 1).skipBlanks.terms (c = '-')).map (⟨negative, f.column, value⟩ :: ·)
          else .error ⟨rest.column, .unexpected c⟩ := by
  rw [terms]
  split
  · rfl
  · split
    · rfl
    · split
      · rfl
      · cases f.term with
        | error e => rfl
        | ok found =>
          obtain ⟨value, length⟩ := found
          rw [Except.ok_bind]
          dsimp only
          split
          · next empty => rw [empty]
          · next c tail more => rw [more]

theorem Fragment.terms_agree (negative : Bool) (same : f.SameText f') :
    Except.Agree (List.Forall₂ Term.Alike) (f.terms negative) (f'.terms negative) := by
  induction size : f.text.length using Nat.strongRecOn generalizing negative f f' with
  | ind size ih =>
    -- what is read behind a sign or an operator is shorter
    have shorter {g g' : Fragment} (negative : Bool) (same : g.SameText g') (more : g.text ≠ [])
        (part : g.text.length ≤ f.text.length) :
        Except.Agree (List.Forall₂ Term.Alike) ((g.drop 1).skipBlanks.terms negative)
          ((g'.drop 1).skipBlanks.terms negative) := by
      have dropped := length_drop_lt Nat.one_pos more
      have skipped := length_skipBlanks_le (g.drop 1)
      exact ih _ (by omega) negative (same.drop 1).skipBlanks rfl
    rw [terms_eq, terms_eq negative f', ← (same : f.text = f'.text)]
    split
    · exact .error
    · next more =>
      split
      · exact shorter _ same more (Nat.le_refl _)
      · split
        · exact shorter _ same more (Nat.le_refl _)
        · refine (term_agree same).bind fun found _ equal => ?_
          cases equal
          obtain ⟨value, length⟩ := found
          have sameRest := (same.drop length).skipBlanks
          dsimp only
          rw [← (sameRest : (f.drop length).skipBlanks.text = _)]
          split
          · exact .ok (.cons ⟨rfl, rfl⟩ .nil)
          · next some =>
            split
            · have part : (f.drop length).skipBlanks.text.length ≤ f.text.length :=
                Nat.le_trans (length_skipBlanks_le _) (by simp [drop])
              have moreRest : (f.drop length).skipBlanks.text ≠ [] := by
                rw [some]
                exact List.cons_ne_nil _ _
              exact (shorter _ sameRest moreRest part).map fun _ _ others =>
                .cons ⟨rfl, rfl⟩ others
            · exact .error

theorem Expression.parse_agree (same : f.SameText f') :
    Except.Agree Expression.Alike (parse f) (parse f') :=
  (Fragment.terms_agree false same.skipBlanks).map fun _ _ alike => alike

namespace Expression.Alike

variable {e e' : Expression} {table : SymbolTable}

theorem zero (column column' : Nat) : (Expression.zero column).Alike (Expression.zero column') :=
  List.Forall₂.nil

/-- Alike expressions mention the same symbols in the same order. -/
theorem symbols_eq (alike : e.Alike e') : e.symbols.map (·.1) = e'.symbols.map (·.1) := by
  obtain ⟨column, terms⟩ := e
  obtain ⟨column', terms'⟩ := e'
  change List.Forall₂ Term.Alike terms terms' at alike
  induction alike with
  | nil => rfl
  | @cons t t' terms terms' head _ ih =>
    simp only [symbols] at ih ⊢
    obtain ⟨-, value⟩ := head
    rw [List.filterMap_cons, List.filterMap_cons, value]
    cases t'.value with
    | number n => exact ih
    | symbol name => exact congrArg (name :: ·) ih

theorem evaluate_agree (alike : e.Alike e') :
    Except.Agree Eq (e.evaluate table) (e'.evaluate table) := by
  obtain ⟨column, terms⟩ := e
  obtain ⟨column', terms'⟩ := e'
  change List.Forall₂ Term.Alike terms terms' at alike
  have sum (total : Int) : Except.Agree Eq (Expression.sum table column total terms)
      (Expression.sum table column' total terms') := by
    induction alike generalizing total with
    | nil => exact .ok rfl
    | @cons t t' terms terms' head _ ih =>
      have value : Except.Agree Eq (t.evaluate table) (t'.evaluate table) := by
        obtain ⟨negative, place, value⟩ := t
        obtain ⟨negative', place', value'⟩ := t'
        obtain ⟨rfl, rfl⟩ := head
        refine Except.Agree.map (R := Eq) ?_ fun _ _ equal => by rw [equal]
        simp only [Term.magnitude]
        split
        · exact .ok rfl
        · split
          · exact .ok rfl
          · exact .error
      refine value.bind fun v _ equal => ?_
      cases equal
      split
      · exact ih _
      · exact .error
  exact sum 0

end Expression.Alike

/-! ## Operands of instructions -/

/-- The operands are the same but for the columns of their terms. -/
inductive Operand.Alike : Operand → Operand → Prop
  | register (r : Register) : Alike (.register r) (.register r)
  | immediate {e e' : Expression} : e.Alike e' → Alike (.immediate e) (.immediate e')
  | memoryOffset {e e' : Expression} (base : Register) : e.Alike e' →
    Alike (.memoryOffset base e) (.memoryOffset base e')
  | memoryAbsolute {e e' : Expression} : e.Alike e' → Alike (.memoryAbsolute e) (.memoryAbsolute e')
  | bare {e e' : Expression} : e.Alike e' → Alike (.bare e) (.bare e')
  | string (bytes : List UInt8) : Alike (.string bytes) (.string bytes)

theorem Fragment.toRegister?_agree (same : f.SameText f') :
    Except.Agree Eq f.toRegister? f'.toRegister? := by
  obtain ⟨column, text⟩ := f
  obtain ⟨column', text'⟩ := f'
  cases same
  simp only [toRegister?]
  split
  · exact .ok rfl
  · split
    · split
      · exact .error
      · exact .ok rfl
    · exact .ok rfl

theorem Operand.ofMemoryParts_agree (opened opened' : Nat) {parts parts' : List Fragment}
    (same : List.Forall₂ SameText parts parts') :
    Except.Agree Operand.Alike (ofMemoryParts opened parts) (ofMemoryParts opened' parts') := by
  rcases same with _ | ⟨first, _ | ⟨second, _ | ⟨third, rest⟩⟩⟩
  · exact .error
  · rw [ofMemoryParts, ofMemoryParts, ← (first : Fragment.text _ = _)]
    split
    · exact (Expression.parse_agree (first.drop 1)).map fun _ _ => .memoryAbsolute
    · refine (Fragment.toRegister?_agree first).bind fun base _ equal => ?_
      cases equal
      cases base with
      | some base => exact .ok (.memoryOffset base (.zero _ _))
      | none =>
        exact (Expression.parse_agree first).bind fun _ _ alike => .ok (.memoryAbsolute alike)
  · rw [ofMemoryParts, ofMemoryParts, ← (second : Fragment.text _ = _)]
    refine (Fragment.toRegister?_agree first).bind fun base _ equal => ?_
    cases equal
    cases base with
    | none => exact .error
    | some base =>
      dsimp only
      split
      · exact (Expression.parse_agree (second.drop 1)).bind fun _ _ alike =>
          .ok (.memoryOffset base alike)
      · exact .error
  · exact .error

theorem Operand.parse_agree (same : f.SameText f') :
    Except.Agree Operand.Alike (parse f) (parse f') := by
  have opened := same
  obtain ⟨column, text⟩ := f
  obtain ⟨column', text'⟩ := f'
  cases opened
  simp only [parse]
  split
  · split
    · exact (Fragment.splitOperands_agree (same.drop 1).dropLast.trails).bind fun _ _ parts =>
        ofMemoryParts_agree _ _ parts
    · exact .error
  · exact (Expression.parse_agree (same.drop 1)).map fun _ _ => .immediate
  · exact (Fragment.toStringBytes_agree same).map fun bytes _ equal => equal ▸ .string bytes
  · refine (Fragment.toRegister?_agree same).bind fun r _ equal => ?_
    cases equal
    cases r with
    | some r => exact .ok (.register r)
    | none => exact (Expression.parse_agree same).bind fun _ _ alike => .ok (.bare alike)

namespace Operand.Alike

variable {o o' : Operand} {table : SymbolTable}

theorem fits_eq (alike : o.Alike o') (shape : OperandShape) : o.fits shape = o'.fits shape := by
  cases alike <;> cases shape <;> rfl

theorem allFit_eq {operands operands' : List Operand}
    (alike : List.Forall₂ Operand.Alike operands operands') (shapes : List OperandShape) :
    allFit shapes operands = allFit shapes operands' := by
  induction alike generalizing shapes with
  | nil => rfl
  | cons head _ ih =>
    cases shapes with
    | nil => rfl
    | cons shape shapes => rw [allFit, allFit, head.fits_eq, ih]

theorem evaluate_agree (alike : o.Alike o') :
    Except.Agree Eq (o.evaluate table) (o'.evaluate table) := by
  cases alike with
  | register | string => exact .ok rfl
  | immediate alike | memoryAbsolute alike | bare alike | memoryOffset _ alike =>
    exact alike.evaluate_agree.map fun _ _ equal => by rw [equal]

end Operand.Alike

/-- The form that operands fit is found whatever the case of the letters in the mnemonic. -/
theorem Opcode.select_agree (sameUpper : f.text.map Char.toUpper = f'.text.map Char.toUpper)
    {operands operands' : List Operand} (alike : List.Forall₂ Operand.Alike operands operands') :
    Except.Agree Eq (Opcode.select f operands) (Opcode.select f' operands') := by
  have candidates : Opcode.withMnemonic f.text = Opcode.withMnemonic f'.text := by
    rw [Opcode.withMnemonic, Opcode.withMnemonic, sameUpper]
  have fit : (fun op : Opcode => Operand.allFit op.shapes operands) =
      fun op => Operand.allFit op.shapes operands' :=
    funext fun op => Operand.Alike.allFit_eq alike op.shapes
  rw [select, select, candidates, fit]
  split
  · exact .ok rfl
  · split <;> exact .error

end RobotMachine
