import RobotMachine.Proofs.PlainText

/-!
# Walks over the bytes of a text

A scanner that works in place holds an index into the bytes of a text, moves it by hand and cuts
pieces out of the text between two indices. Much can go wrong in this: an index may point behind the
end, a cut may start or stop inside a character, a loop may not come to an end. A `Trap` stands for
each of them, so that a scanner which never gets there can be told from one that does.

* `Fragment.cut`: a cut succeeds between whole characters only.
* `Fragment.Leaves`: an index stands at the start of a character, and this is what follows it.
* `loop`: repeats a step within a budget.
-/

namespace RobotMachine

/-! ## Outcomes -/

/-- What can go wrong in a walk. -/
inductive Trap
  /-- There is no byte at an index. -/
  | index
  /-- A cut out of bounds, or inside a character. -/
  | cut
  /-- A number does not fit its cursor. -/
  | overflow
  /-- A loop goes on after its budget. -/
  | endless
  deriving DecidableEq, Repr

/-- Why a walk ends early: it refuses the text, or it goes wrong. -/
inductive Stop (ε : Type)
  | refused (e : ε)
  | trap (t : Trap)
  deriving DecidableEq, Repr

def Stop.map {ε ε' : Type} (f : ε → ε') : Stop ε → Stop ε'
  | refused e => refused (f e)
  | trap t => trap t

/-- The outcome of something that can refuse the text and can go wrong. -/
abbrev Checked (ε α : Type) := Except (Stop ε) α

/-- An outcome as that of something which cannot go wrong. -/
def checked {ε α : Type} (x : Except ε α) : Checked ε α :=
  x.mapError .refused

section Outcomes

variable {ε ε' α β σ : Type}

@[simp]
theorem checked_ok (a : α) : checked (.ok a : Except ε α) = .ok a := rfl

theorem checked_bind (x : Except ε α) (f : α → Except ε β) :
    checked (x >>= f) = checked x >>= fun a => checked (f a) := by
  cases x <;> rfl

theorem checked_map (x : Except ε α) (f : α → β) : checked (x.map f) = (checked x).map f := by
  cases x <;> rfl

theorem checked_eq_ok_iff {x : Except ε α} {a : α} : checked x = .ok a ↔ x = .ok a :=
  Except.mapError_eq_ok_iff

theorem checked_forM (f : α → Except ε Unit) (as : List α) :
    checked (as.forM f) = as.forM fun a => checked (f a) := by
  induction as with
  | nil => rfl
  | cons a as ih =>
    refine (checked_bind (f a) _).trans (bind_congr fun () => ih)

theorem checked_mapM (f : α → Except ε β) (as : List α) :
    checked (as.mapM f) = as.mapM fun a => checked (f a) := by
  induction as with
  | nil => rfl
  | cons a as ih =>
    rw [List.mapM_cons, List.mapM_cons, checked_bind]
    refine bind_congr fun b => ?_
    rw [checked_bind, ih]
    rfl

/-- Repeats a step until it comes to a result, at most as often as the budget says. -/
def loop (step : σ → Checked ε (σ ⊕ α)) : Nat → σ → Checked ε α
  | 0, _ => .error (.trap .endless)
  | budget + 1, s => do
    match ← step s with
    | .inl s => loop step budget s
    | .inr a => return a

variable {step : σ → Checked ε (σ ⊕ α)} {s : σ}

theorem loop_next {s' : σ} (next : step s = .ok (.inl s')) (budget : Nat) :
    loop step (budget + 1) s = loop step budget s' := by
  rw [loop, next]
  rfl

theorem loop_done {a : α} (done : step s = .ok (.inr a)) (budget : Nat) :
    loop step (budget + 1) s = .ok a := by
  rw [loop, done]
  rfl

theorem loop_stop {e : Stop ε} (stop : step s = .error e) (budget : Nat) :
    loop step (budget + 1) s = .error e := by
  rw [loop, stop]
  rfl

/-- Steps that only move an index on move it on by their number. -/
theorem loop_moves (state : Nat → σ) {start count : Nat}
    (moves : ∀ j < count, step (state (start + j)) = .ok (.inl (state (start + j + 1))))
    (budget : Nat) :
    loop step (budget + count) (state start) = loop step budget (state (start + count)) := by
  induction count generalizing budget with
  | zero => rfl
  | succ count ih =>
    have last := moves count (Nat.lt_succ_self _)
    rw [Nat.add_comm count, ← Nat.add_assoc, ih fun j below => moves j (Nat.lt_succ_of_lt below),
      loop_next last, Nat.add_comm 1, Nat.add_assoc]

end Outcomes

/-! ## Bytes of characters -/

/-- The bytes of a text. -/
def utf8Bytes (text : List Char) : List UInt8 :=
  text.flatMap String.utf8EncodeChar

/-- A byte as the character with its number. -/
def byteChar (b : UInt8) : Char :=
  Char.ofNat b.toNat

/-- Two characters are the same or neither is ASCII, so no test for ASCII characters tells them
apart. -/
def SameAscii (b c : Char) : Prop :=
  b = c ∨ 128 ≤ b.toNat ∧ 128 ≤ c.toNat

/-- Only ASCII characters satisfy the test. -/
def AsciiOnly (p : Char → Bool) : Prop :=
  ∀ c, p c = true → c.toNat < 128

theorem ne_of_high {c k : Char} (high : 128 ≤ c.toNat) (ascii : k.toNat < 128) : c ≠ k := by
  rintro rfl
  omega

theorem AsciiOnly.eq_false {p : Char → Bool} (ascii : AsciiOnly p) {c : Char}
    (high : 128 ≤ c.toNat) : p c = false :=
  Bool.eq_false_iff.mpr fun holds => by
    have small := ascii c holds
    omega

theorem AsciiOnly.eq_of_sameAscii {p : Char → Bool} (ascii : AsciiOnly p) {b c : Char}
    (same : SameAscii b c) : p b = p c := by
  rcases same with rfl | ⟨highB, highC⟩
  · rfl
  · rw [ascii.eq_false highB, ascii.eq_false highC]

theorem SameAscii.eq_iff {b c k : Char} (same : SameAscii b c) (ascii : k.toNat < 128) :
    b = k ↔ c = k := by
  rcases same with rfl | ⟨highB, highC⟩
  · rfl
  · exact iff_of_false (ne_of_high highB ascii) (ne_of_high highC ascii)

theorem isAlphanum_lt {c : Char} (holds : c.isAlphanum = true) : c.toNat < 128 := by
  simp only [Char.isAlphanum, Bool.or_eq_true, isAlpha_iff_toNat, isDigit_iff_toNat] at holds
  omega

theorem asciiOnly_isIdentifierChar : AsciiOnly isIdentifierChar := by
  intro c holds
  simp only [isIdentifierChar, Bool.or_eq_true, beq_iff_eq] at holds
  rcases holds with (letter | rfl) | rfl
  · exact isAlphanum_lt letter
  · decide
  · decide

theorem isIdentifierChar_of_start {c : Char} (start : isIdentifierStart c = true) :
    isIdentifierChar c = true := by
  simp only [isIdentifierStart, isIdentifierChar, Char.isAlphanum, Bool.or_eq_true] at start ⊢
  rcases start with (letter | same) | same
  · exact .inl (.inl (.inl letter))
  · exact .inl (.inr same)
  · exact .inr same

theorem asciiOnly_isIdentifierStart : AsciiOnly isIdentifierStart :=
  fun c start => asciiOnly_isIdentifierChar c (isIdentifierChar_of_start start)

theorem asciiOnly_isDigit : AsciiOnly Char.isDigit := by
  intro c digit
  have := isDigit_iff_toNat.mp digit
  omega

theorem asciiOnly_isAsciiBlank : AsciiOnly isAsciiBlank := by
  intro c blank
  simp only [isAsciiBlank, Bool.or_eq_true, beq_iff_eq] at blank
  rcases blank with (((rfl | rfl) | rfl) | rfl) | rfl <;> decide

/-- An ASCII character is its own byte. -/
theorem utf8EncodeChar_of_ascii {c : Char} (ascii : c.toNat < 128) :
    String.utf8EncodeChar c = [UInt8.ofNat c.toNat] := by
  have small : c.val.toNat ≤ 0x7f := Nat.le_of_lt_succ ascii
  rw [String.utf8EncodeChar]
  exact if_pos small

theorem byteChar_of_ascii {c : Char} (ascii : c.toNat < 128) :
    byteChar (UInt8.ofNat c.toNat) = c := by
  rw [byteChar, UInt8.toNat_ofNat_of_lt' (Nat.lt_trans ascii (by decide)), Char.ofNat_toNat]

theorem toNat_byteChar (b : UInt8) : (byteChar b).toNat = b.toNat := by
  have small : b.toNat < 0xd800 := Nat.lt_trans b.toNat_lt (by decide)
  rw [byteChar, Char.ofNat, dif_pos (.inl small)]
  rfl

/-- The bytes of any other character are not ASCII. -/
theorem high_of_mem_utf8EncodeChar {c : Char} (high : 128 ≤ c.toNat) {b : UInt8}
    (member : b ∈ String.utf8EncodeChar c) : 128 ≤ (byteChar b).toNat := by
  have large : ¬ c.val.toNat ≤ 0x7f := Nat.not_le.mpr high
  rw [toNat_byteChar]
  simp only [String.utf8EncodeChar, if_neg large] at member
  split at member
  · simp only [List.mem_cons, List.not_mem_nil, or_false] at member
    rcases member with rfl | rfl <;> (rw [UInt8.toNat_ofNat']; omega)
  · split at member
    · simp only [List.mem_cons, List.not_mem_nil, or_false] at member
      rcases member with rfl | rfl | rfl <;> (rw [UInt8.toNat_ofNat']; omega)
    · simp only [List.mem_cons, List.not_mem_nil, or_false] at member
      rcases member with rfl | rfl | rfl | rfl <;> (rw [UInt8.toNat_ofNat']; omega)

theorem utf8Size_of_ascii {c : Char} (ascii : c.toNat < 128) : c.utf8Size = 1 := by
  rw [← String.length_utf8EncodeChar, utf8EncodeChar_of_ascii ascii, List.length_singleton]

theorem utf8Length_pos {text : List Char} (more : text ≠ []) : 0 < utf8Length text := by
  obtain ⟨c, text, rfl⟩ := List.exists_cons_of_ne_nil more
  exact Nat.add_pos_left c.utf8Size_pos _

theorem utf8Length_concat (front : List Char) (c : Char) :
    utf8Length (front ++ [c]) = utf8Length front + c.utf8Size := by
  rw [utf8Length_append, utf8Length, utf8Length, Nat.add_zero]

theorem utf8Bytes_cons (c : Char) (text : List Char) :
    utf8Bytes (c :: text) = String.utf8EncodeChar c ++ utf8Bytes text :=
  List.flatMap_cons

theorem utf8Bytes_append (front back : List Char) :
    utf8Bytes (front ++ back) = utf8Bytes front ++ utf8Bytes back :=
  List.flatMap_append

@[simp]
theorem length_utf8Bytes (text : List Char) : (utf8Bytes text).length = utf8Length text := by
  induction text with
  | nil => rfl
  | cons c text ih =>
    rw [utf8Bytes_cons, List.length_append, String.length_utf8EncodeChar, ih, utf8Length]

theorem drop_utf8Bytes (before text : List Char) :
    (utf8Bytes (before ++ text)).drop (utf8Length before) = utf8Bytes text := by
  rw [utf8Bytes_append, List.drop_left' (length_utf8Bytes before)]

/-- A run of bytes is a run of characters, for a class of ASCII characters. -/
theorem length_takeWhile_utf8Bytes {p : Char → Bool} (ascii : AsciiOnly p) (text : List Char) :
    (((utf8Bytes text).map byteChar).takeWhile p).length = utf8Length (text.takeWhile p) := by
  induction text with
  | nil => rfl
  | cons c text ih =>
    rw [utf8Bytes_cons, List.map_append]
    by_cases small : c.toNat < 128
    · rw [utf8EncodeChar_of_ascii small, List.map_singleton, List.singleton_append,
        List.takeWhile_cons, List.takeWhile_cons, byteChar_of_ascii small]
      cases p c with
      | false => rfl
      | true =>
        rw [if_pos rfl, if_pos rfl, List.length_cons, ih, utf8Length, utf8Size_of_ascii small,
          Nat.add_comm]
    -- both runs stop here: the character fails the test, and so does its first byte already
    · rw [Nat.not_lt] at small
      obtain ⟨b, bytes, encoded⟩ :=
        List.exists_cons_of_ne_nil (String.utf8EncodeChar_ne_nil (c := c))
      have high := high_of_mem_utf8EncodeChar small (encoded ▸ List.mem_cons_self)
      rw [encoded, List.map_cons, List.cons_append, List.takeWhile_cons_of_neg,
        List.takeWhile_cons_of_neg]
      · rfl
      · rw [ascii.eq_false small]
        exact Bool.false_ne_true
      · rw [ascii.eq_false high]
        exact Bool.false_ne_true

/-! ## Cuts -/

/-- A text in two at a number of bytes, if these are whole characters. -/
def splitBytes? : Nat → List Char → Option (List Char × List Char)
  | 0, text => some ([], text)
  | _ + 1, [] => none
  | n + 1, c :: text =>
    if c.utf8Size ≤ n + 1 then
      (splitBytes? (n + 1 - c.utf8Size) text).map fun (front, back) => (c :: front, back)
    else
      none

theorem splitBytes?_utf8Length (front back : List Char) :
    splitBytes? (utf8Length front) (front ++ back) = some (front, back) := by
  induction front with
  | nil => cases back <;> rfl
  | cons c front ih =>
    have positive := c.utf8Size_pos
    obtain ⟨n, size⟩ : ∃ n, utf8Length (c :: front) = n + 1 :=
      ⟨utf8Length (c :: front) - 1, by rw [utf8Length]; omega⟩
    have rest : n + 1 - c.utf8Size = utf8Length front := by
      rw [← size, utf8Length]
      omega
    have fits : c.utf8Size ≤ n + 1 := by
      rw [← size, utf8Length]
      omega
    rw [size, List.cons_append, splitBytes?, if_pos fits, rest, ih]
    rfl

namespace Fragment

variable {ε : Type}

def bytes (f : Fragment) : List UInt8 :=
  utf8Bytes f.text

/-- The byte at an index, as the character with its number, if the index is not behind the end. -/
def byte? (f : Fragment) (i : Nat) : Option Char :=
  f.bytes[i]?.map byteChar

/-- The byte at an index, which must be there. -/
def byteIn (f : Fragment) (i : Nat) : Checked ε Char :=
  match f.byte? i with
  | some b => .ok b
  | none => .error (.trap .index)

/-- The bytes from an index on, which may stand inside a character. -/
def bytesFrom (f : Fragment) (start : Nat) : Checked ε (List Char) :=
  if start ≤ f.bytes.length then .ok ((f.bytes.drop start).map byteChar)
  else .error (.trap .cut)

/-- What follows an index. -/
def cutFrom (f : Fragment) (start : Nat) : Checked ε Fragment :=
  match splitBytes? start f.text with
  | some (_, back) => .ok ⟨f.column + start, back⟩
  | none => .error (.trap .cut)

/-- What stands between two indices. -/
def cut (f : Fragment) (start stop : Nat) : Checked ε Fragment :=
  match splitBytes? stop f.text with
  | some (front, _) => cutFrom ⟨f.column, front⟩ start
  | none => .error (.trap .cut)

/-- The index behind the bytes of a class that start at an index. -/
def runEnd (f : Fragment) (p : Char → Bool) (start : Nat) : Checked ε Nat := do
  let bytes ← f.bytesFrom start
  return start + (bytes.takeWhile p).length

/-- Refuses the character at an index. -/
def unexpected {α : Type} (f : Fragment) (i : Nat) : Checked LineError α := do
  let back ← f.cutFrom i
  .error (.refused ⟨f.column + i, .unexpected (back.text.head?.getD ' ')⟩)

/-! ## Indices between characters -/

/-- The index stands between two characters, or at an end, and the fragment is what follows it. -/
def Leaves (f : Fragment) (i : Nat) (back : Fragment) : Prop :=
  ∃ before, f.text = before ++ back.text ∧ utf8Length before = i ∧ back.column = f.column + i

theorem Leaves.refl (f : Fragment) : f.Leaves 0 f :=
  ⟨[], rfl, rfl, rfl⟩

namespace Leaves

variable {f back : Fragment} {i : Nat}

theorem length_bytes (leaves : f.Leaves i back) : f.bytes.length = i + utf8Length back.text := by
  obtain ⟨before, same, rfl, -⟩ := leaves
  rw [bytes, length_utf8Bytes, same, utf8Length_append]

theorem lt_length_iff (leaves : f.Leaves i back) : i < f.bytes.length ↔ back.text ≠ [] := by
  rw [leaves.length_bytes]
  cases back.text with
  | nil => simp
  | cons c text =>
    have := c.utf8Size_pos
    simp only [utf8Length, ne_eq, reduceCtorEq, not_false_eq_true, iff_true]
    omega

/-- There is less left behind an index further on. -/
theorem utf8Length_lt (leaves : f.Leaves i back) {j : Nat} {next : Fragment}
    (further : f.Leaves j next) (lt : i < j) : utf8Length next.text < utf8Length back.text := by
  have whole := leaves.length_bytes
  rw [further.length_bytes] at whole
  omega

theorem length_le_iff (leaves : f.Leaves i back) : f.bytes.length ≤ i ↔ back.text = [] := by
  rw [← Nat.not_lt, leaves.lt_length_iff, not_not]

theorem lt_length (leaves : f.Leaves i back) {c : Char} {text : List Char}
    (split : back.text = c :: text) : i < f.bytes.length :=
  leaves.lt_length_iff.mpr (split ▸ List.cons_ne_nil c text)

theorem advance (leaves : f.Leaves i back) {front : List Char} {next : Fragment}
    (split : back.text = front ++ next.text)
    (column : next.column = back.column + utf8Length front) :
    f.Leaves (i + utf8Length front) next := by
  obtain ⟨before, same, rfl, start⟩ := leaves
  refine ⟨before ++ front, ?_, utf8Length_append before front, ?_⟩
  · rw [same, split, List.append_assoc]
  · rw [column, start, Nat.add_assoc]

/-- The index behind the next character. -/
theorem next (leaves : f.Leaves i back) {c : Char} {text : List Char}
    (split : back.text = c :: text) :
    f.Leaves (i + c.utf8Size) ⟨back.column + c.utf8Size, text⟩ := by
  have behind : f.Leaves (i + utf8Length [c]) ⟨back.column + c.utf8Size, text⟩ :=
    leaves.advance split rfl
  exact behind

theorem dropWhile (leaves : f.Leaves i back) (p : Char → Bool) :
    f.Leaves (i + utf8Length (back.text.takeWhile p)) (back.dropWhile p) :=
  leaves.advance List.takeWhile_append_dropWhile.symm rfl

theorem drop (leaves : f.Leaves i back) (n : Nat) :
    f.Leaves (i + utf8Length (back.text.take n)) (back.drop n) :=
  leaves.advance (List.take_append_drop n back.text).symm rfl

theorem drop_one (leaves : f.Leaves i back) {c : Char} (head : back.text.head? = some c)
    (ascii : c.toNat < 128) : f.Leaves (i + 1) (back.drop 1) := by
  have dropped := leaves.drop 1
  obtain ⟨text, split⟩ := List.head?_eq_some_iff.mp head
  have size : utf8Length (back.text.take 1) = 1 := by
    rw [split, List.take_succ_cons, List.take_zero, utf8Length, utf8Length, Nat.add_zero,
      utf8Size_of_ascii ascii]
  rwa [size] at dropped

/-! An index between characters can be cut at, and the byte there tells ASCII characters apart. -/

theorem cutFrom_eq (leaves : f.Leaves i back) : f.cutFrom i = (.ok back : Checked ε Fragment) := by
  obtain ⟨before, same, rfl, start⟩ := leaves
  rw [cutFrom, same, splitBytes?_utf8Length, ← start]

theorem cut_eq (leaves : f.Leaves i back) {front rest : List Char}
    (split : back.text = front ++ rest) :
    f.cut i (i + utf8Length front) = (.ok ⟨back.column, front⟩ : Checked ε Fragment) := by
  obtain ⟨before, same, rfl, start⟩ := leaves
  have stop : splitBytes? (utf8Length before + utf8Length front) f.text =
      some (before ++ front, rest) := by
    rw [← utf8Length_append, same, split, ← List.append_assoc, splitBytes?_utf8Length]
  rw [cut, stop]
  exact cutFrom_eq ⟨before, rfl, rfl, start⟩

theorem cut_takeWhile (leaves : f.Leaves i back) (p : Char → Bool) :
    f.cut i (i + utf8Length (back.text.takeWhile p)) =
      (.ok (back.takeWhile p) : Checked ε Fragment) :=
  leaves.cut_eq List.takeWhile_append_dropWhile.symm

theorem bytesFrom_eq (leaves : f.Leaves i back) :
    f.bytesFrom i = (.ok ((utf8Bytes back.text).map byteChar) : Checked ε (List Char)) := by
  have inside : i ≤ f.bytes.length := by
    rw [leaves.length_bytes]
    exact Nat.le_add_right _ _
  obtain ⟨before, same, rfl, -⟩ := leaves
  rw [bytesFrom, if_pos inside, bytes, same, drop_utf8Bytes]

theorem runEnd_eq (leaves : f.Leaves i back) {p : Char → Bool} (ascii : AsciiOnly p) :
    f.runEnd p i = (.ok (i + utf8Length (back.text.takeWhile p)) : Checked ε Nat) := by
  rw [runEnd, leaves.bytesFrom_eq, Except.ok_bind, length_takeWhile_utf8Bytes ascii]
  rfl

theorem exists_blanksEnd (leaves : f.Leaves i back) :
    ∃ j, i ≤ j ∧ f.runEnd isAsciiBlank i = (.ok j : Checked ε Nat) ∧
      f.Leaves j back.skipBlanks :=
  ⟨_, Nat.le_add_right _ _, leaves.runEnd_eq asciiOnly_isAsciiBlank, leaves.dropWhile _⟩

theorem unexpected_eq {α : Type} (leaves : f.Leaves i back) {c : Char}
    (head : back.text.head? = some c) :
    f.unexpected i = (.error (.refused ⟨back.column, .unexpected c⟩) : Checked LineError α) := by
  rw [unexpected, leaves.cutFrom_eq, Except.ok_bind, head, Option.getD_some]
  obtain ⟨-, -, -, start⟩ := leaves
  rw [start]

/-- The bytes of the character at the index: the first one is the character itself if that is
ASCII, and any other is no ASCII character. -/
theorem byteIn_eq (leaves : f.Leaves i back) {c : Char} {text : List Char}
    (split : back.text = c :: text) {j : Nat} (inside : j < c.utf8Size) :
    ∃ b, f.byteIn (i + j) = (.ok b : Checked ε Char) ∧
      (j = 0 ∧ b = c ∨ 128 ≤ b.toNat ∧ 128 ≤ c.toNat) := by
  obtain ⟨before, same, rfl, -⟩ := leaves
  have found : f.bytes[utf8Length before + j]? = (String.utf8EncodeChar c)[j]? := by
    rw [← List.getElem?_drop, bytes, same, drop_utf8Bytes, split, utf8Bytes_cons,
      List.getElem?_append_left (by rwa [String.length_utf8EncodeChar])]
  by_cases small : c.toNat < 128
  · have first : j = 0 := by
      rw [utf8Size_of_ascii small] at inside
      omega
    refine ⟨c, ?_, .inl ⟨first, rfl⟩⟩
    rw [byteIn, byte?, found, utf8EncodeChar_of_ascii small, first, List.getElem?_cons_zero,
      Option.map_some, byteChar_of_ascii small]
  · rw [Nat.not_lt] at small
    rw [← String.length_utf8EncodeChar] at inside
    rw [List.getElem?_eq_getElem inside] at found
    refine ⟨byteChar (String.utf8EncodeChar c)[j], ?_, .inr ⟨?_, small⟩⟩
    · rw [byteIn, byte?, found, Option.map_some]
    · exact high_of_mem_utf8EncodeChar small (List.getElem_mem inside)

theorem byteIn_ascii (leaves : f.Leaves i back) {c : Char} {text : List Char}
    (split : back.text = c :: text) (ascii : c.toNat < 128) :
    f.byteIn i = (.ok c : Checked ε Char) := by
  obtain ⟨b, found, same⟩ := leaves.byteIn_eq (ε := ε) split c.utf8Size_pos
  rcases same with ⟨-, rfl⟩ | ⟨-, high⟩
  · exact found
  · omega

theorem byteIn_head (leaves : f.Leaves i back) {c : Char} (head : back.text.head? = some c) :
    ∃ b, f.byteIn i = (.ok b : Checked ε Char) ∧ SameAscii b c := by
  obtain ⟨text, split⟩ := List.head?_eq_some_iff.mp head
  obtain ⟨b, found, same⟩ := leaves.byteIn_eq (ε := ε) split c.utf8Size_pos
  exact ⟨b, found, same.imp And.right id⟩

theorem byte?_eq_some_iff (leaves : f.Leaves i back) {k : Char} (ascii : k.toNat < 128) :
    f.byte? i = some k ↔ back.text.head? = some k := by
  cases head : back.text.head? with
  | none =>
    have stop := leaves.length_le_iff.mpr (List.head?_eq_none_iff.mp head)
    rw [byte?, List.getElem?_eq_none stop, Option.map_none]
  | some c =>
    obtain ⟨b, found, same⟩ := leaves.byteIn_head (ε := Empty) head
    unfold byteIn at found
    split at found
    · next some =>
      cases found
      rw [some, Option.some_inj, Option.some_inj, same.eq_iff ascii]
    · cases found

end Leaves

end Fragment

end RobotMachine
