import Mathlib.Data.List.Forall2

/-!
# Outcomes of operations that can fail

An operation in several steps succeeds exactly when each of its steps does. The equivalences here
take such an outcome apart; the equations put it together again.
-/

namespace RobotMachine.Except

variable {ε ε' α β : Type}

theorem bind_eq_ok_iff {x : Except ε α} {f : α → Except ε β} {b : β} :
    x >>= f = .ok b ↔ ∃ a, x = .ok a ∧ f a = .ok b := by
  cases x with
  | error e => exact ⟨nofun, fun ⟨_, h, _⟩ => nomatch h⟩
  | ok a =>
    refine ⟨fun h => ?_, fun parts => ?_⟩
    · exact ⟨a, rfl, h⟩
    · obtain ⟨_, first, h⟩ := parts
      cases first
      exact h

theorem map_eq_ok_iff {x : Except ε α} {f : α → β} {b : β} :
    x.map f = .ok b ↔ ∃ a, x = .ok a ∧ f a = b := by
  cases x with
  | error e => exact ⟨nofun, fun ⟨_, h, _⟩ => nomatch h⟩
  | ok a =>
    refine ⟨fun h => ?_, fun parts => ?_⟩
    · exact ⟨a, rfl, Except.ok.inj h⟩
    · obtain ⟨_, first, rfl⟩ := parts
      cases first
      rfl

theorem map_eq_error_iff {x : Except ε α} {f : α → β} {e : ε} :
    x.map f = .error e ↔ x = .error e := by
  cases x with
  | error e' =>
    refine ⟨fun h => ?_, fun h => ?_⟩
    · exact congrArg _ (Except.error.inj h)
    · exact congrArg _ (Except.error.inj h)
  | ok a => exact ⟨nofun, nofun⟩

theorem mapError_eq_ok_iff {x : Except ε α} {f : ε → ε'} {a : α} :
    x.mapError f = .ok a ↔ x = .ok a := by
  cases x with
  | error e => exact ⟨nofun, nofun⟩
  | ok b => exact ⟨fun h => congrArg _ (Except.ok.inj h), fun h => congrArg _ (Except.ok.inj h)⟩

theorem bind_eq_error_iff {x : Except ε α} {f : α → Except ε β} {e : ε} :
    x >>= f = .error e ↔ x = .error e ∨ ∃ a, x = .ok a ∧ f a = .error e := by
  cases x with
  | error e' =>
    refine ⟨fun h => ?_, fun parts => ?_⟩
    · exact .inl (congrArg _ (Except.error.inj h))
    · rcases parts with h | ⟨_, h, _⟩
      · exact congrArg _ (Except.error.inj h)
      · cases h
  | ok a =>
    refine ⟨fun h => ?_, fun parts => ?_⟩
    · exact .inr ⟨a, rfl, h⟩
    · rcases parts with h | ⟨_, first, h⟩
      · cases h
      · cases first
        exact h

theorem mapError_eq_error_iff {x : Except ε α} {f : ε → ε'} {e' : ε'} :
    x.mapError f = .error e' ↔ ∃ e, x = .error e ∧ f e = e' := by
  cases x with
  | error e =>
    refine ⟨fun h => ?_, fun parts => ?_⟩
    · exact ⟨e, rfl, Except.error.inj h⟩
    · obtain ⟨_, first, rfl⟩ := parts
      cases first
      rfl
  | ok a => exact ⟨nofun, fun ⟨_, h, _⟩ => nomatch h⟩

theorem toOption_eq_some_iff {x : Except ε α} {a : α} : x.toOption = some a ↔ x = .ok a := by
  cases x with
  | error e => exact ⟨nofun, nofun⟩
  | ok b => exact ⟨fun same => congrArg _ (Option.some.inj same), fun same => by cases same; rfl⟩

theorem pure_eq_ok_iff {a b : α} : (pure a : Except ε α) = .ok b ↔ a = b :=
  ⟨Except.ok.inj, congrArg _⟩

theorem ok_bind (a : α) (f : α → Except ε β) : Except.ok a >>= f = f a := rfl

theorem ok_map (a : α) (f : α → β) : (Except.ok a : Except ε α).map f = .ok (f a) := rfl

/-- A list of operations succeeds exactly when each of them does. -/
theorem mapM_eq_ok_iff {f : α → Except ε β} {as : List α} {bs : List β} :
    as.mapM f = .ok bs ↔ List.Forall₂ (fun a b => f a = .ok b) as bs := by
  induction as generalizing bs with
  | nil =>
    rw [List.mapM_nil, pure_eq_ok_iff, List.forall₂_nil_left_iff]
    exact eq_comm
  | cons a as ih =>
    simp only [List.mapM_cons, bind_eq_ok_iff, pure_eq_ok_iff, ih, List.forall₂_cons_left_iff]
    refine ⟨fun outcome => ?_, fun parts => ?_⟩
    · obtain ⟨b, head, bs, tail, rfl⟩ := outcome
      exact ⟨b, bs, head, tail, rfl⟩
    · obtain ⟨b, bs, head, tail, rfl⟩ := parts
      exact ⟨b, head, bs, tail, rfl⟩

theorem mapM_cons_eq_ok_iff {f : α → Except ε β} {a : α} {as : List α} {bs : List β} :
    (a :: as).mapM f = .ok bs ↔
      ∃ first others, f a = .ok first ∧ as.mapM f = .ok others ∧ bs = first :: others := by
  simp only [mapM_eq_ok_iff, List.forall₂_cons_left_iff]

theorem mapM_append_eq_ok_iff {f : α → Except ε β} {as bs : List α} {cs : List β} :
    (as ++ bs).mapM f = .ok cs ↔
      ∃ front back, as.mapM f = .ok front ∧ bs.mapM f = .ok back ∧ cs = front ++ back := by
  simp only [List.mapM_append, bind_eq_ok_iff, pure_eq_ok_iff]
  refine ⟨fun outcome => ?_, fun parts => ?_⟩
  · obtain ⟨front, first, back, second, rfl⟩ := outcome
    exact ⟨front, back, first, second, rfl⟩
  · obtain ⟨front, back, first, second, rfl⟩ := parts
    exact ⟨front, first, back, second, rfl⟩

/-! ## Outcomes that agree -/

/-- Both operations fail, or both give results that are related. -/
inductive Agree (R : α → β → Prop) : Except ε α → Except ε' β → Prop
  | ok {a : α} {b : β} : R a b → Agree R (.ok a) (.ok b)
  | error {e : ε} {e' : ε'} : Agree R (.error e) (.error e')

namespace Agree

variable {α' β' : Type} {R : α → β → Prop} {S : α' → β' → Prop} {x : Except ε α} {y : Except ε' β}

theorem refl {R : α → α → Prop} (same : ∀ a, R a a) (x : Except ε α) : Agree R x x := by
  cases x with
  | ok a => exact .ok (same a)
  | error e => exact .error

theorem symm (agree : Agree R x y) : Agree (fun b a => R a b) y x := by
  cases agree with
  | ok related => exact .ok related
  | error => exact .error

theorem exists_ok {a : α} (agree : Agree R (.ok a : Except ε α) y) : ∃ b, y = .ok b ∧ R a b := by
  cases agree with
  | ok related => exact ⟨_, rfl, related⟩

theorem exists_error {e : ε} (agree : Agree R (.error e : Except ε α) y) : ∃ e', y = .error e' := by
  cases agree with
  | error => exact ⟨_, rfl⟩

theorem bind {f : α → Except ε α'} {g : β → Except ε' β'} (agree : Agree R x y)
    (next : ∀ a b, R a b → Agree S (f a) (g b)) : Agree S (x >>= f) (y >>= g) := by
  cases agree with
  | ok related => exact next _ _ related
  | error => exact .error

theorem map {f : α → α'} {g : β → β'} (agree : Agree R x y) (next : ∀ a b, R a b → S (f a) (g b)) :
    Agree S (x.map f) (y.map g) := by
  cases agree with
  | ok related => exact .ok (next _ _ related)
  | error => exact .error

theorem mapError {ε₁ ε₂ : Type} (agree : Agree R x y) (f : ε → ε₁) (g : ε' → ε₂) :
    Agree R (x.mapError f) (y.mapError g) := by
  cases agree with
  | ok related => exact .ok related
  | error => exact .error

/-- Operations on related lists agree if those on their elements do. -/
theorem mapM {f : α → Except ε α'} {g : β → Except ε' β'} {as : List α} {bs : List β}
    (related : List.Forall₂ R as bs) (each : ∀ a b, R a b → Agree S (f a) (g b)) :
    Agree (List.Forall₂ S) (as.mapM f) (bs.mapM g) := by
  induction related with
  | nil => exact .ok .nil
  | cons head _ ih =>
    rw [List.mapM_cons, List.mapM_cons]
    exact (each _ _ head).bind fun _ _ first => ih.bind fun _ _ others => .ok (.cons first others)

end Agree

/-! ## Results and errors of a kind -/

/-- The operation gives a result of one kind, or fails with an error of another. -/
inductive Ends (R : α → Prop) (E : ε → Prop) : Except ε α → Prop
  | ok {a : α} : R a → Ends R E (.ok a)
  | error {e : ε} : E e → Ends R E (.error e)

namespace Ends

variable {R R' : α → Prop} {S : β → Prop} {E : ε → Prop} {E' : ε' → Prop} {x : Except ε α}

theorem of_error {e : ε} (ends : Ends R E (.error e : Except ε α)) : E e := by
  cases ends with
  | error holds => exact holds

theorem weaken (ends : Ends R E x) (weaker : ∀ a, R a → R' a) : Ends R' E x := by
  cases ends with
  | ok holds => exact .ok (weaker _ holds)
  | error holds => exact .error holds

theorem bind {f : α → Except ε β} (ends : Ends R E x) (next : ∀ a, R a → Ends S E (f a)) :
    Ends S E (x >>= f) := by
  cases ends with
  | ok holds => exact next _ holds
  | error holds => exact .error holds

theorem map {f : α → β} (ends : Ends R E x) (next : ∀ a, R a → S (f a)) : Ends S E (x.map f) := by
  cases ends with
  | ok holds => exact .ok (next _ holds)
  | error holds => exact .error holds

theorem mapError {f : ε → ε'} (ends : Ends R E x) (next : ∀ e, E e → E' (f e)) :
    Ends R E' (x.mapError f) := by
  cases ends with
  | ok holds => exact .ok holds
  | error holds => exact .error (next _ holds)

/-- The results of a list of operations are of the kind that each of them gives. -/
theorem mapM {f : α → Except ε β} {as : List α} (each : ∀ a ∈ as, Ends S E (f a)) :
    Ends (fun bs => ∀ b ∈ bs, S b) E (as.mapM f) := by
  induction as with
  | nil => exact .ok nofun
  | cons a as ih =>
    rw [List.forall_mem_cons] at each
    rw [List.mapM_cons]
    exact each.1.bind fun b first => (ih each.2).bind fun bs others =>
      .ok (List.forall_mem_cons.mpr ⟨first, others⟩)

theorem forM {f : α → Except ε PUnit} {as : List α}
    (each : ∀ a ∈ as, Ends (fun _ => True) E (f a)) : Ends (fun _ => True) E (as.forM f) := by
  induction as with
  | nil => exact .ok trivial
  | cons a as ih =>
    rw [List.forall_mem_cons] at each
    exact each.1.bind fun _ _ => ih each.2

end Ends

/-- The operation fails just if a condition holds, and then with an error of a kind. -/
abbrev FailsIff (P : Prop) (E : ε → Prop) (x : Except ε α) : Prop :=
  Ends (fun _ => ¬P) (fun e => P ∧ E e) x

namespace FailsIff

variable {P Q : Prop} {E : ε → Prop} {x : Except ε α}

theorem congr (fails : FailsIff P E x) (same : P ↔ Q) : FailsIff Q E x := by
  cases fails with
  | ok holds => exact .ok (mt same.mpr holds)
  | error holds => exact .error ⟨same.mp holds.1, holds.2⟩

theorem map (fails : FailsIff P E x) (f : α → β) : FailsIff P E (x.map f) :=
  Ends.map fails fun _ holds => holds

theorem mapError {f : ε → ε'} {E' : ε' → Prop} (fails : FailsIff P E x)
    (next : ∀ e, E e → E' (f e)) : FailsIff P E' (x.mapError f) :=
  Ends.mapError fails fun e holds => ⟨holds.1, next e holds.2⟩

theorem bind {Q : α → Prop} {f : α → Except ε β} (fails : FailsIff P E x)
    (next : ∀ a, x = .ok a → FailsIff (Q a) E (f a)) :
    FailsIff (P ∨ ∃ a, x = .ok a ∧ Q a) E (x >>= f) := by
  cases fails with
  | @ok a holds =>
    refine (next a rfl).congr ⟨fun bad => .inr ⟨a, rfl, bad⟩, fun bad => ?_⟩
    rcases bad with bad | ⟨a', same, bad⟩
    · exact absurd bad holds
    · cases same
      exact bad
  | error holds => exact .error ⟨.inl holds.1, holds.2⟩

theorem mapM {P : α → Prop} {f : α → Except ε β} {as : List α}
    (each : ∀ a ∈ as, FailsIff (P a) E (f a)) : FailsIff (∃ a ∈ as, P a) E (as.mapM f) := by
  induction as with
  | nil => exact .ok nofun
  | cons a as ih =>
    rw [List.forall_mem_cons] at each
    have first := each.1
    rw [List.mapM_cons]
    cases made : f a with
    | error e =>
      rw [made] at first
      obtain ⟨bad, kind⟩ := first.of_error
      exact .error ⟨⟨a, List.mem_cons_self, bad⟩, kind⟩
    | ok b =>
      rw [made] at first
      cases first with
      | ok good =>
        have others := (ih each.2).map (b :: ·)
        refine FailsIff.congr others ?_
        simp only [List.mem_cons, exists_eq_or_imp, good, false_or]

/-- A list of operations fails with the error of the first that fails. -/
theorem exists_first {P : α → Prop} {f : α → Except ε β} {as : List α}
    (each : ∀ a ∈ as, FailsIff (P a) E (f a)) (bad : ∃ a ∈ as, P a) :
    ∃ front a back e, as = front ++ a :: back ∧ (∀ a' ∈ front, ¬P a') ∧ P a ∧ E e ∧
      f a = .error e ∧ as.mapM f = .error e := by
  induction as with
  | nil => exact absurd bad nofun
  | cons a as ih =>
    rw [List.forall_mem_cons] at each
    have first := each.1
    cases made : f a with
    | error e =>
      rw [made] at first
      obtain ⟨holds, kind⟩ := first.of_error
      refine ⟨[], a, as, e, rfl, nofun, holds, kind, made, ?_⟩
      rw [List.mapM_cons, made]
      rfl
    | ok b =>
      rw [made] at first
      cases first with
      | ok good =>
        have others : ∃ a ∈ as, P a := by
          obtain ⟨a', member, holds⟩ := bad
          rcases List.mem_cons.mp member with rfl | behind
          · exact absurd holds good
          · exact ⟨a', behind, holds⟩
        obtain ⟨front, a', back, e, rfl, fine, holds, kind, failed, failedAll⟩ := ih each.2 others
        refine ⟨a :: front, a', back, e, rfl, List.forall_mem_cons.mpr ⟨good, fine⟩, holds, kind,
          failed, ?_⟩
        rw [List.mapM_cons, made, failedAll]
        rfl

end FailsIff

end RobotMachine.Except
