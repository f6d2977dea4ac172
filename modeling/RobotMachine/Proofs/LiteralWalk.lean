import RobotMachine.Proofs.ByteWalk

/-!
# Walks that pass over literals

Two walks over a line look for something outside its literals: one for the start of a comment, the
other for the commas between operands. A quote opens a literal, the same quote closes it, and inside
it a backslash moves the index on by two, wherever that leads: into a character of several bytes, or
behind the end of the line.

* `Walker.loop_eq_walk`: the walk ends, and it sees just the characters outside literals, each at
  the index of its first byte.
-/

namespace RobotMachine

/-! ## Walkers -/

/-- Where a walk stands: what it keeps, the quote of the literal around the next byte, and the index
of that byte. -/
structure LiteralWalk (τ : Type) where
  kept : τ
  quote : Option Char
  index : Nat

/-- How a walk treats the bytes outside literals, and how it ends. -/
structure Walker (τ α : Type) where
  visit : τ → Nat → Char → Checked LineError (τ ⊕ α)
  finish : τ → Option Char → Checked LineError α

/-- The literal and the index behind a byte of a literal. What stands behind a backslash is passed
over, be it a byte or only a part of a character or nothing at all. -/
def passByte (quote : Char) (i : Nat) (b : Char) : Option Char × Nat :=
  if b = '\\' then (some quote, i + 2) else if b = quote then (none, i + 1) else (some quote, i + 1)

/-- Whether a character opens a literal. -/
def isQuote (c : Char) : Bool :=
  c == '"' || c == '\''

namespace Walker

variable {τ α : Type}

def step (w : Walker τ α) (f : Fragment) (p : LiteralWalk τ) :
    Checked LineError (LiteralWalk τ ⊕ α) :=
  if p.index < f.bytes.length then do
    let b ← f.byteIn p.index
    match p.quote with
    | some quote =>
      let (quote, i) := passByte quote p.index b
      return .inl ⟨p.kept, quote, i⟩
    | none =>
      match ← w.visit p.kept p.index b with
      | .inl kept => return .inl ⟨kept, if isQuote b then some b else none, p.index + 1⟩
      | .inr a => return .inr a
  else
    (w.finish p.kept p.quote).map .inr

/-- The outcome of a walk over a fragment. Each step is at most one byte, and the last one ends. -/
def run (w : Walker τ α) (f : Fragment) (start : τ) : Checked LineError α :=
  loop (w.step f) (f.bytes.length + 1) ⟨start, none, 0⟩

/-- The same walk over characters. -/
def walk (w : Walker τ α) (kept : τ) (quoting : Quoting) (pos : Nat) :
    List Char → Checked LineError α
  | [] =>
    match quoting with
    | .outside => w.finish kept none
    | .inside quote | .escaped quote => w.finish kept (some quote)
  | c :: text =>
    if quoting = .outside then do
      match ← w.visit kept pos c with
      | .inl kept => w.walk kept (quoting.next c) (pos + c.utf8Size) text
      | .inr a => return a
    else
      w.walk kept (quoting.next c) (pos + c.utf8Size) text

/-- The walk takes no notice of bytes that are not ASCII. -/
def SkipsHigh (w : Walker τ α) : Prop :=
  ∀ kept i b, 128 ≤ b.toNat → w.visit kept i b = .ok (.inl kept)

end Walker

/-- Where a walk over bytes stands at a character: behind a backslash it is one byte further on. -/
def Quoting.walkAt {τ : Type} (kept : τ) (pos : Nat) : Quoting → LiteralWalk τ
  | outside => ⟨kept, none, pos⟩
  | inside quote => ⟨kept, some quote, pos⟩
  | escaped quote => ⟨kept, some quote, pos + 1⟩

/-- The literal around a place, if there is one, was opened by an ASCII character. -/
def Quoting.AsciiQuote (quoting : Quoting) : Prop :=
  ∀ quote, quoting = inside quote ∨ quoting = escaped quote → quote.toNat < 128

theorem isQuote_iff {c : Char} : isQuote c = true ↔ c = '"' ∨ c = '\'' := by
  rw [isQuote, Bool.or_eq_true, beq_iff_eq, beq_iff_eq]

theorem asciiOnly_isQuote : AsciiOnly isQuote := by
  intro c quote
  rcases isQuote_iff.mp quote with rfl | rfl <;> decide

theorem isQuote_of_high {c : Char} (high : 128 ≤ c.toNat) : isQuote c = false :=
  asciiOnly_isQuote.eq_false high

theorem Quoting.next_outside (c : Char) :
    Quoting.outside.next c = if isQuote c then .inside c else .outside := by
  simp only [next, isQuote_iff]

theorem Quoting.AsciiQuote.next {quoting : Quoting} (ascii : quoting.AsciiQuote) (c : Char) :
    (quoting.next c).AsciiQuote := by
  intro quote within
  cases quoting with
  | outside =>
    rw [next_outside] at within
    split at within
    · next opens =>
      rcases within with same | same <;> cases same
      exact asciiOnly_isQuote _ opens
    · rcases within with same | same <;> cases same
  | inside q =>
    have small := ascii q (.inl rfl)
    simp only [Quoting.next] at within
    split at within
    · rcases within with same | same <;> cases same
      exact small
    · split at within
      · rcases within with same | same <;> cases same
      · rcases within with same | same <;> cases same
        exact small
  | escaped q =>
    rcases within with same | same <;> cases same
    exact ascii _ (.inr rfl)

namespace Walker

variable {τ α : Type} {w : Walker τ α} {f back : Fragment} {kept : τ} {i pos budget : Nat}
  {b : Char}

theorem step_outside (kept : τ) (found : f.byteIn i = (.ok b : Checked LineError Char))
    (inside : i < f.bytes.length) :
    w.step f ⟨kept, none, i⟩ = do
      match ← w.visit kept i b with
      | .inl kept => return .inl ⟨kept, if isQuote b then some b else none, i + 1⟩
      | .inr a => return .inr a := by
  rw [step, if_pos inside, found]
  rfl

theorem step_inside (kept : τ) (quote : Char)
    (found : f.byteIn i = (.ok b : Checked LineError Char)) (inside : i < f.bytes.length) :
    w.step f ⟨kept, some quote, i⟩ =
      .ok (.inl ⟨kept, (passByte quote i b).1, (passByte quote i b).2⟩) := by
  rw [step, if_pos inside, found]
  rfl

theorem loop_end {p : LiteralWalk τ} (behind : f.bytes.length ≤ p.index) :
    loop (w.step f) (budget + 1) p = w.finish p.kept p.quote := by
  have last : w.step f p = (w.finish p.kept p.quote).map .inr := if_neg (Nat.not_lt.mpr behind)
  cases outcome : w.finish p.kept p.quote with
  | error e => exact loop_stop (by rw [last, outcome]; rfl) budget
  | ok a => exact loop_done (by rw [last, outcome]; rfl) budget

/-- A byte that is not ASCII changes nothing, inside literals and outside. -/
theorem step_high (skips : w.SkipsHigh) {quote : Option Char}
    (ascii : ∀ q, quote = some q → q.toNat < 128)
    (found : f.byteIn i = (.ok b : Checked LineError Char)) (inside : i < f.bytes.length)
    (high : 128 ≤ b.toNat) : w.step f ⟨kept, quote, i⟩ = .ok (.inl ⟨kept, quote, i + 1⟩) := by
  cases quote with
  | none =>
    rw [step_outside kept found inside, skips kept i b high, Except.ok_bind, isQuote_of_high high]
    rfl
  | some q =>
    have backslash : b ≠ '\\' := ne_of_high high (by decide)
    have other : b ≠ q := ne_of_high high (ascii q rfl)
    rw [step_inside kept q found inside, passByte, if_neg backslash, if_neg other]

/-- The bytes of a character that is not ASCII are passed over, from any of them on. -/
theorem loop_high (skips : w.SkipsHigh) (leaves : f.Leaves pos back) {c : Char} {text : List Char}
    (split : back.text = c :: text) (high : 128 ≤ c.toNat) (quote : Option Char)
    (ascii : ∀ q, quote = some q → q.toNat < 128) {start count : Nat}
    (size : start + count = c.utf8Size) (budget : Nat) :
    loop (w.step f) (budget + count) ⟨kept, quote, pos + start⟩ =
      loop (w.step f) budget ⟨kept, quote, pos + c.utf8Size⟩ := by
  have moves (j : Nat) (below : j < count) :
      w.step f ⟨kept, quote, pos + start + j⟩ = .ok (.inl ⟨kept, quote, pos + start + j + 1⟩) := by
    have within : start + j < c.utf8Size := by omega
    obtain ⟨b, found, same⟩ := leaves.byteIn_eq (ε := LineError) split within
    have inside : pos + (start + j) < f.bytes.length := by
      rw [leaves.length_bytes, split, utf8Length]
      omega
    rw [← Nat.add_assoc] at found inside
    refine step_high skips ascii found inside ?_
    rcases same with ⟨-, rfl⟩ | ⟨highByte, -⟩
    · exact high
    · exact highByte
  rw [← size, ← Nat.add_assoc]
  exact loop_moves (fun i => LiteralWalk.mk kept quote i) moves budget

/-! One character, seen from its first byte or, behind a backslash, from its second one. -/

section Character

variable {c : Char} {text : List Char}

theorem loop_outside (skips : w.SkipsHigh) (leaves : f.Leaves pos back)
    (split : back.text = c :: text) (budget : Nat) :
    loop (w.step f) (budget + c.utf8Size) (Quoting.outside.walkAt kept pos) = do
      match ← w.visit kept pos c with
      | .inl kept =>
        loop (w.step f) budget ((Quoting.outside.next c).walkAt kept (pos + c.utf8Size))
      | .inr a => return a := by
  by_cases small : c.toNat < 128
  · have step := step_outside (w := w) kept (leaves.byteIn_ascii split small)
      (leaves.lt_length split)
    rw [utf8Size_of_ascii small]
    cases visited : w.visit kept pos c with
    | error e =>
      rw [visited] at step
      exact loop_stop step budget
    | ok result =>
      rw [visited, Except.ok_bind] at step
      cases result with
      | inr a => exact loop_done step budget
      | inl kept =>
        refine (loop_next step budget).trans ?_
        rw [Except.ok_bind, Quoting.next_outside]
        cases isQuote c <;> rfl
  · rw [Nat.not_lt] at small
    rw [skips kept pos c small, Except.ok_bind, Quoting.next_outside, isQuote_of_high small]
    exact loop_high skips leaves split small none nofun (Nat.zero_add _) budget

theorem loop_inside (skips : w.SkipsHigh) (leaves : f.Leaves pos back)
    (split : back.text = c :: text) {quote : Char} (ascii : quote.toNat < 128) (budget : Nat) :
    loop (w.step f) (budget + c.utf8Size) ((Quoting.inside quote).walkAt kept pos) =
      loop (w.step f) budget (((Quoting.inside quote).next c).walkAt kept (pos + c.utf8Size)) := by
  by_cases small : c.toNat < 128
  · have step := step_inside (w := w) kept quote (leaves.byteIn_ascii split small)
      (leaves.lt_length split)
    rw [utf8Size_of_ascii small]
    refine (loop_next step budget).trans ?_
    rw [Quoting.next, passByte]
    split
    · rfl
    · split <;> rfl
  · rw [Nat.not_lt] at small
    have backslash : c ≠ '\\' := ne_of_high small (by decide)
    have other : c ≠ quote := ne_of_high small ascii
    rw [Quoting.next, if_neg backslash, if_neg other]
    refine loop_high skips leaves split small (some quote) (fun q same => ?_) (Nat.zero_add _)
      budget
    cases same
    exact ascii

theorem loop_escaped (skips : w.SkipsHigh) (leaves : f.Leaves pos back)
    (split : back.text = c :: text) {quote : Char} (ascii : quote.toNat < 128) (budget : Nat) :
    loop (w.step f) (budget + (c.utf8Size - 1)) ((Quoting.escaped quote).walkAt kept pos) =
      loop (w.step f) budget ((Quoting.inside quote).walkAt kept (pos + c.utf8Size)) := by
  by_cases small : c.toNat < 128
  · rw [utf8Size_of_ascii small]
    rfl
  · have size : 1 + (c.utf8Size - 1) = c.utf8Size := Nat.add_sub_cancel' c.utf8Size_pos
    refine loop_high skips leaves split (Nat.not_lt.mp small) (some quote) (fun q same => ?_) size
      budget
    cases same
    exact ascii

end Character

/-- A walk over bytes ends, and it sees each character once at its first byte: the other bytes of a
character are not ASCII, so none is mistaken for a quote, a backslash or anything else. -/
theorem loop_eq_walk (skips : w.SkipsHigh) {quoting : Quoting} (ascii : quoting.AsciiQuote)
    (leaves : f.Leaves pos back) (room : utf8Length back.text < budget) :
    loop (w.step f) budget (quoting.walkAt kept pos) = w.walk kept quoting pos back.text := by
  obtain ⟨column, text⟩ := back
  -- on what is left; behind a backslash one byte of it has been passed before its turn, so the
  -- character there costs one step less than it has bytes, and maybe none
  induction text generalizing quoting pos column kept budget with
  | nil =>
    obtain ⟨budget, rfl⟩ : ∃ n, budget = n + 1 := ⟨budget - 1, by omega⟩
    have behind : f.bytes.length ≤ (quoting.walkAt kept pos).index := by
      rw [leaves.length_bytes]
      cases quoting with
      | outside => exact Nat.le_refl _
      | inside quote => exact Nat.le_refl _
      | escaped quote => exact Nat.le_succ _
    rw [loop_end behind]
    cases quoting <;> rfl
  | cons c text ih =>
    have next : f.Leaves (pos + c.utf8Size) ⟨column + c.utf8Size, text⟩ := leaves.next rfl
    have positive := c.utf8Size_pos
    simp only [utf8Length] at room
    cases quoting with
    | outside =>
      obtain ⟨budget, rfl⟩ : ∃ n, budget = n + c.utf8Size := ⟨budget - c.utf8Size, by omega⟩
      have enough : utf8Length text < budget := by omega
      rw [loop_outside skips leaves rfl, walk, if_pos rfl]
      refine bind_congr fun result => ?_
      cases result with
      | inl kept => exact ih (ascii.next c) _ next enough
      | inr a => rfl
    | inside quote =>
      obtain ⟨budget, rfl⟩ : ∃ n, budget = n + c.utf8Size := ⟨budget - c.utf8Size, by omega⟩
      have enough : utf8Length text < budget := by omega
      rw [loop_inside skips leaves rfl (ascii quote (.inl rfl)), walk, if_neg nofun]
      exact ih (ascii.next c) _ next enough
    | escaped quote =>
      obtain ⟨budget, rfl⟩ : ∃ n, budget = n + (c.utf8Size - 1) :=
        ⟨budget - (c.utf8Size - 1), by omega⟩
      have enough : utf8Length text < budget := by omega
      rw [loop_escaped skips leaves rfl (ascii quote (.inr rfl)), walk, if_neg nofun]
      exact ih (ascii.next c) _ next enough

theorem run_eq_walk (skips : w.SkipsHigh) (f : Fragment) (kept : τ) :
    w.run f kept = w.walk kept .outside 0 f.text := by
  have none : Quoting.outside.AsciiQuote := fun _ within => by
    rcases within with same | same <;> cases same
  have room : utf8Length f.text < f.bytes.length + 1 := by
    rw [Fragment.bytes, length_utf8Bytes]
    exact Nat.lt_succ_self _
  exact loop_eq_walk skips none (.refl f) room

end Walker

end RobotMachine
