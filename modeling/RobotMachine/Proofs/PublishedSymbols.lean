import RobotMachine.Proofs.ByteWalk
import RobotMachine.Proofs.LineStatements
import RobotMachine.Proofs.QuotedText
import RobotMachine.Proofs.UsableLabels

/-!
# Published symbols

A program lists the symbols that its source defines, in the order of the bytes of their names. The
lines define every name once and the list has each of them once, with the value that the second look
at the source works with. So it does not matter how a name is looked up in it: a search that relies
on the order finds what is there.

* `ComesBefore`, `comesBefore_iff`: the order of bytes is that of characters.
* `IsDefinable`, `Layout.isDefinable_of_ofScanned`: no register and not the mailbox.
* `IsBinarySearch`: what a search in an ordered list has to answer.
* `assemble_symbols`: the symbols of a program.
-/

namespace RobotMachine

/-! ## The order of bytes -/

/-- Of two characters the smaller one has the smaller bytes, whatever follows. -/
theorem utf8EncodeChar_append_lt {c d : Char} (smaller : c < d) (cs ds : List UInt8) :
    String.utf8EncodeChar c ++ cs < String.utf8EncodeChar d ++ ds := by
  have below : c.val.toNat < d.val.toNat := UInt32.lt_iff_toNat_lt.mp smaller
  have bounded : d.val.toNat < 0x110000 := by
    rcases d.valid with low | ⟨-, high⟩
    · exact Nat.lt_trans low (by decide)
    · exact high
  simp only [String.utf8EncodeChar]
  generalize c.val.toNat = m at below
  generalize d.val.toNat = n at below bounded
  have digits (k : Nat) : k / 4096 = k / 64 / 64 ∧ k / 262144 = k / 64 / 64 / 64 := by omega
  simp only [digits]
  -- a shorter encoding starts with a smaller byte, and encodings of one length have the digits of
  -- the numbers to base 64 in them, the highest first
  split_ifs
  all_goals
    simp only [List.cons_append, List.nil_append, List.cons_lt_cons_iff, UInt8.lt_iff_toNat_lt,
      ← UInt8.toNat_inj, UInt8.toNat_ofNat']
    omega

theorem utf8Bytes_lt {text text' : List Char} (smaller : text < text') :
    utf8Bytes text < utf8Bytes text' := by
  induction smaller with
  | nil =>
    rename_i c text
    cases encoded : utf8Bytes (c :: text) with
    | nil => cases utf8Bytes_eq_nil_iff.mp encoded
    | cons b bytes => exact List.nil_lt_cons b bytes
  | cons _ ih => exact List.append_left_lt ih
  | rel smaller => exact utf8EncodeChar_append_lt smaller _ _

/-- The name is in front of the other in the order of their bytes. -/
def ComesBefore (name other : String) : Prop :=
  utf8Bytes name.toList < utf8Bytes other.toList

/-- UTF-8 keeps the order of characters. -/
theorem comesBefore_iff {name other : String} : ComesBefore name other ↔ name < other := by
  refine ⟨fun before => ?_, fun smaller => utf8Bytes_lt (String.lt_iff.mp smaller)⟩
  by_contra notSmaller
  by_cases smaller : other < name
  · exact List.lt_asymm before (utf8Bytes_lt (String.lt_iff.mp smaller))
  · obtain rfl := String.le_antisymm (String.not_lt.mp smaller) (String.not_lt.mp notSmaller)
    exact List.lt_irrefl _ before

theorem ComesBefore.ne {name other : String} (before : ComesBefore name other) : name ≠ other := by
  intro same
  subst same
  exact List.lt_irrefl _ before

/-! ## Names that can be defined -/

/-- A source may define the name: it is not that of the mailbox nor that of a register. -/
def IsDefinable (name : String) : Prop :=
  name ≠ SymbolTable.mailboxName ∧ Register.ofName? name.toList = none

namespace Layout

variable {l l' m : Layout} {lines : List SourceLine} {src : SourceLine} {line : Nat}

theorem isDefinable_of_name {f : Fragment}
    (name : Register.ofName? f.text = none ∧ f.toString ≠ SymbolTable.mailboxName) :
    IsDefinable f.toString := by
  refine ⟨name.2, ?_⟩
  rw [Fragment.toString, String.toList_ofList]
  exact name.1

theorem isDefinable_of_addDirective {c : Clause} {d : Directive} {f : Fragment}
    (directive : src.directive? = some d) (clause : src.clause = some c)
    (constant : src.constant? = some f) (added : m.addDirective line d c = .ok l') :
    IsDefinable f.toString := by
  rw [SourceLine.constant?, directive, clause] at constant
  split at constant
  · next kind =>
    have first : c.operands.head? = some f := constant
    have adds : ∃ symbol value, c.operands = [symbol, value] ∧
        m.addConstant symbol value = .ok l' := by
      rcases kind with kind | kind
      all_goals
        cases kind
        simp only [addDirective] at added
        split at added
        · next symbol value operands => exact ⟨symbol, value, operands, added⟩
        · cases added
    obtain ⟨symbol, value, operands, added⟩ := adds
    rw [operands] at first
    cases first
    obtain ⟨e, v, -, -, -, defined⟩ := addConstant_eq_ok added
    exact isDefinable_of_name (name_of_define defined)
  · cases constant

/-- Every name that a line defines may be defined. -/
theorem isDefinable_of_addLine (added : l.addLine line src = .ok l') :
    ∀ name ∈ src.definedNames, IsDefinable name := by
  intro name member
  obtain ⟨f, defines, rfl⟩ := List.mem_map.mp member
  rcases List.mem_append.mp defines with label | constant
  · exact isDefinable_of_name (name_of_addLine added (Option.mem_toList.mp label))
  · have constant : src.constant? = some f := Option.mem_toList.mp constant
    rcases addLine_cases added with ⟨clause, -⟩ | ⟨c, m, clause, -, added⟩
    · simp [SourceLine.constant?, clause] at constant
    · rcases added with ⟨d, directive, added⟩ | ⟨directive, -⟩
      · exact isDefinable_of_addDirective directive clause constant added
      · simp [SourceLine.constant?, directive] at constant

theorem isDefinable_of_ofScanned (laidOut : ofScanned lines = .ok l) :
    ∀ name ∈ definedNames lines, IsDefinable name := by
  refine ofScanned_induction (motive := fun lines _ => ∀ name ∈ definedNames lines,
    IsDefinable name) nofun (fun lines src l l' _ definable added => ?_) laidOut
  intro name member
  rw [definedNames, List.flatMap_append, List.flatMap_singleton] at member
  rcases List.mem_append.mp member with before | here
  · exact definable name before
  · exact isDefinable_of_addLine added name here

/-! ## The list of symbols -/

/-- The symbols are listed in the order of their names, none of them twice. -/
theorem pairwise_sortedSymbols (nodup : l.symbols.names.Nodup) :
    l.sortedSymbols.Pairwise fun a b => ComesBefore a.1 b.1 := by
  have ordered : l.sortedSymbols.Pairwise fun a b => decide (a.1 ≤ b.1) = true := by
    refine List.pairwise_mergeSort (fun a b c first second => ?_) (fun a b => ?_) _
    · rw [decide_eq_true_iff] at *
      exact String.le_trans first second
    · rw [Bool.or_eq_true, decide_eq_true_iff, decide_eq_true_iff]
      exact String.le_total _ _
  have distinct : (l.sortedSymbols.map (·.1)).Nodup := by
    rw [(l.sortedSymbols_perm.map _).nodup_iff, List.map_map]
    exact nodup
  refine List.Pairwise.imp₂ (fun a b le ne => ?_) ordered (List.pairwise_map.mp distinct)
  rw [comesBefore_iff, ← String.not_le]
  intro ge
  exact ne (String.le_antisymm (of_decide_eq_true le) ge)

theorem names_sortedSymbols_perm (laidOut : ofScanned lines = .ok l) :
    (l.sortedSymbols.map (·.1)).Perm (definedNames lines) := by
  have names : (l.sortedSymbols.map (·.1)).Perm l.symbols.names := by
    have sorted := l.sortedSymbols_perm.map (·.1)
    rw [List.map_map] at sorted
    exact sorted
  rw [names_of_ofScanned laidOut] at names
  exact names.trans (List.reverse_perm _)

/-- A program lists the values that the second look at its source works with, as words. -/
theorem mem_sortedSymbols_iff (laidOut : ofScanned lines = .ok l) {name : String} {v : UInt32} :
    (name, v) ∈ l.sortedSymbols ↔
      name ≠ SymbolTable.mailboxName ∧ (l.symbols.value? name).map UInt32.ofInt = some v := by
  have nodup := (follows_of_ofScanned laidOut).labels.nodup
  rw [l.sortedSymbols_perm.mem_iff, List.mem_map]
  constructor
  · intro entry
    obtain ⟨⟨name, value⟩, member, same⟩ := entry
    cases same
    have listed : name ∈ l.symbols.names := List.mem_map_of_mem member
    rw [names_of_ofScanned laidOut, List.mem_reverse] at listed
    have found := lookup_eq_some_of_mem nodup member
    refine ⟨(isDefinable_of_ofScanned laidOut name listed).1, ?_⟩
    rw [SymbolTable.value?, found]
    rfl
  · intro used
    obtain ⟨notMailbox, known⟩ := used
    obtain ⟨value, isValue, rfl⟩ := Option.map_eq_some_iff.mp known
    exact ⟨(name, value), SymbolTable.mem_of_value? isValue notMailbox, rfl⟩

end Layout

/-! ## Looking symbols up -/

/-- The names of the program's symbols, in the order of the list. -/
def Program.symbolNames (p : Program) : List String :=
  p.symbols.map (·.1)

/-- The program lists its symbols in the order of their names. -/
def Program.IsSorted (p : Program) : Prop :=
  p.symbolNames.Pairwise ComesBefore

theorem Program.IsSorted.nodup {p : Program} (sorted : p.IsSorted) : p.symbolNames.Nodup :=
  sorted.imp ComesBefore.ne

/-- In a list without repeated names the search from the end finds every entry and nothing else. -/
theorem Program.IsSorted.symbol?_eq_some_iff {p : Program} (sorted : p.IsSorted) {name : String}
    {v : UInt32} : p.symbol? name = some v ↔ (name, v) ∈ p.symbols := by
  rw [symbol?, ← List.mem_reverse]
  constructor
  · intro found
    obtain ⟨front, back, split, -⟩ := List.lookup_eq_some_iff.mp found
    rw [split]
    exact List.mem_append_right front List.mem_cons_self
  · intro member
    refine lookup_eq_some_of_mem ?_ member
    rw [List.map_reverse, (List.reverse_perm _).nodup_iff]
    exact sorted.nodup

/-- What a search for a name in an ordered list answers: the index of the name, or the one where it
would stand. -/
inductive Locates (names : List String) (name : String) : Except Nat Nat → Prop
  | found {i : Nat} : names[i]? = some name → Locates names name (.ok i)
  | missing {i : Nat} : i ≤ names.length → (∀ other ∈ names.take i, ComesBefore other name) →
    (∀ other ∈ names.drop i, ComesBefore name other) → Locates names name (.error i)

/-- The search answers what a binary search has to, in every list that is ordered. -/
def IsBinarySearch (search : List String → String → Except Nat Nat) : Prop :=
  ∀ names name, names.Pairwise ComesBefore → Locates names name (search names name)

/-- The value of a symbol, looked up with a search among the names. -/
def Program.symbolBy? (search : List String → String → Except Nat Nat) (p : Program)
    (name : String) : Option UInt32 :=
  match search p.symbolNames name with
  | .ok i => p.symbols[i]?.map (·.2)
  | .error _ => none

theorem Program.IsSorted.symbolBy?_eq {p : Program} (sorted : p.IsSorted)
    {search : List String → String → Except Nat Nat} (isSearch : IsBinarySearch search)
    (name : String) : p.symbolBy? search name = p.symbol? name := by
  have located := isSearch p.symbolNames name sorted
  rw [symbolBy?]
  generalize search p.symbolNames name = answer at located
  cases located with
  | @found i here =>
    rw [symbolNames, List.getElem?_map] at here
    obtain ⟨⟨name, v⟩, entry, rfl⟩ := Option.map_eq_some_iff.mp here
    have listed := sorted.symbol?_eq_some_iff.mpr (List.mem_of_getElem? entry)
    rw [listed]
    simp only [entry]
    rfl
  | @missing i _ before behind =>
    cases listed : p.symbol? name with
    | none => rfl
    | some v =>
      have member : name ∈ p.symbolNames :=
        List.mem_map_of_mem (sorted.symbol?_eq_some_iff.mp listed)
      rw [← List.take_append_drop i p.symbolNames] at member
      rcases List.mem_append.mp member with early | late
      · exact absurd rfl (before name early).ne
      · exact absurd rfl (behind name late).ne

theorem Locates.cons {names : List String} {other name : String} {answer : Except Nat Nat}
    (before : ComesBefore other name) (located : Locates names name answer) :
    Locates (other :: names) name ((answer.map (· + 1)).mapError (· + 1)) := by
  cases located with
  | found here => exact .found here
  | missing within early late =>
    exact .missing (Nat.succ_le_succ within) (List.forall_mem_cons.mpr ⟨before, early⟩) late

/-- A search from the front that stops where the name is or would be. -/
def searchInOrder : List String → String → Except Nat Nat
  | [], _ => .error 0
  | other :: names, name =>
    if other = name then .ok 0
    else if name < other then .error 0
    else ((searchInOrder names name).map (· + 1)).mapError (· + 1)

theorem isBinarySearch_searchInOrder : IsBinarySearch searchInOrder := by
  intro names name sorted
  induction sorted with
  | nil => exact .missing (Nat.le_refl 0) nofun nofun
  | @cons other names first _ ih =>
    unfold searchInOrder
    split
    · next same => exact .found (congrArg some same)
    · next differs =>
      split
      · next smaller =>
        have before : ComesBefore name other := comesBefore_iff.mpr smaller
        refine .missing (Nat.zero_le _) nofun (List.forall_mem_cons.mpr ⟨before, ?_⟩)
        exact fun later member => List.lt_trans before (first later member)
      · next notSmaller =>
        refine ih.cons (comesBefore_iff.mpr ?_)
        rw [← String.not_le]
        exact fun le => differs (String.le_antisymm (String.not_lt.mp notSmaller) le)

/-- **The published symbols are the ones that are used.** Assembling lists the names that the labels
and the constants of the source define, each once, strictly in the order of their bytes. None of
them is the mailbox or a register. Every value is the one, as a word, that the symbol has in the
table under which the statements are encoded. A name is looked up with the value that is listed for
it, and with none if it is not listed, also by any binary search that is right on ordered lists. -/
theorem assemble_symbols {source : String} {p : Program} (assembled : assemble source = .ok p) :
    ∃ lines l emissions, (linesOf source.toList).mapM SourceLine.scan = .ok lines ∧
      Layout.ofLines (linesOf source.toList) = .ok l ∧
      List.Forall₂ (fun s e => s.emit l.symbols = .ok e) l.statements.reverse emissions ∧
      p = l.program emissions ∧
      (p.symbols.Pairwise fun a b => utf8Bytes a.1.toList < utf8Bytes b.1.toList) ∧
      (p.symbols.map (·.1)).Perm (definedNames lines) ∧
      (∀ name ∈ definedNames lines,
        name ≠ SymbolTable.mailboxName ∧ Register.ofName? name.toList = none) ∧
      (∀ name v, (name, v) ∈ p.symbols ↔ name ≠ SymbolTable.mailboxName ∧
        (l.symbols.value? name).map UInt32.ofInt = some v) ∧
      (∀ name v, p.symbol? name = some v ↔ (name, v) ∈ p.symbols) ∧
      ∀ search, IsBinarySearch search → ∀ name, p.symbolBy? search name = p.symbol? name := by
  obtain ⟨l, laidOut, emitted⟩ := Except.bind_eq_ok_iff.mp assembled
  obtain ⟨lines, scanned, ofScanned⟩ := Layout.ofLines_eq_ok_iff.mp laidOut
  obtain ⟨-, emissions, each, rfl⟩ := Layout.emit_eq_ok emitted
  have nodup := (Layout.follows_of_ofScanned ofScanned).labels.nodup
  have ordered := Layout.pairwise_sortedSymbols nodup
  have sorted : (l.program emissions).IsSorted := List.pairwise_map.mpr ordered
  refine ⟨lines, l, emissions, scanned, laidOut, each, rfl, ordered, ?_, ?_, ?_, ?_, ?_⟩
  · exact Layout.names_sortedSymbols_perm ofScanned
  · exact Layout.isDefinable_of_ofScanned ofScanned
  · intro name v
    exact Layout.mem_sortedSymbols_iff ofScanned
  · intro name v
    exact sorted.symbol?_eq_some_iff
  · intro search isSearch name
    exact sorted.symbolBy?_eq isSearch name

/-- A label in the text, a negative constant and a label that waits for its data. -/
def mixedSymbols : String :=
  "loop: B loop\n.equ Zed, -1\n.data\nbox:\n.align 4\n.word loop"

theorem assemble_symbols_mixedSymbols :
    ∃ p, assemble mixedSymbols = .ok p ∧ (p.symbols.map (·.1)).Perm ["loop", "Zed", "box"] ∧
      ("Zed", 0xffffffff) ∈ p.symbols ∧ ("box", 0x30010) ∈ p.symbols ∧
      IsBinarySearch searchInOrder ∧ p.symbolBy? searchInOrder "Zed" = some 0xffffffff ∧
      p.symbol? "MAILBOX" = none := by
  have names : ((linesOf mixedSymbols.toList).mapM SourceLine.scan).toOption.map definedNames =
      some ["loop", "Zed", "box"] := by
    decide +kernel
  have values : (Layout.ofLines (linesOf mixedSymbols.toList)).toOption.map
      (fun l => (l.symbols.value? "Zed", l.symbols.value? "box")) =
        some (some (-1), some 0x30010) := by
    decide +kernel
  have succeeds : (assemble mixedSymbols).toOption.isSome = true := by decide +kernel
  cases assembled : assemble mixedSymbols with
  | error e =>
    rw [assembled] at succeeds
    cases succeeds
  | ok p =>
    obtain ⟨lines, l, -, scanned, laidOut, -, -, -, listed, -, valued, found, searched⟩ :=
      assemble_symbols assembled
    rw [scanned] at names
    rw [laidOut] at values
    obtain ⟨zed, box⟩ := Prod.mk.inj (Option.some.inj values)
    have zedListed : ("Zed", 0xffffffff) ∈ p.symbols := by
      refine (valued "Zed" _).mpr ⟨by decide, ?_⟩
      rw [zed]
      rfl
    have boxListed : ("box", 0x30010) ∈ p.symbols := by
      refine (valued "box" _).mpr ⟨by decide, ?_⟩
      rw [box]
      rfl
    have noMailbox : p.symbol? "MAILBOX" = none := by
      cases value : p.symbol? "MAILBOX" with
      | none => rfl
      | some v => exact absurd rfl ((valued _ v).mp ((found _ v).mp value)).1
    refine ⟨p, rfl, Option.some.inj names ▸ listed, zedListed, boxListed,
      isBinarySearch_searchInOrder, ?_, noMailbox⟩
    rw [searched _ isBinarySearch_searchInOrder]
    exact (found _ _).mpr zedListed

end RobotMachine
