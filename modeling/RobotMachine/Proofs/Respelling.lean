import Mathlib.Logic.Relation
import RobotMachine.Proofs.AlikePrograms
import RobotMachine.Proofs.LineHeads

/-!
# Spellings of a source

Comments, blanks in front of lines, line ends and the case of the letters in heads can be changed on
any of the lines of a source without a change to its program, and a line without content that is
added to it moves the lines of the instructions behind it.

* `Respelled`, `Respelled.exists_recase`: other spellings of a line.
* `assemble_of_keepsContent`: sources whose lines have the same contents.
* `assemble_insert`: a source with another line without content.
* `assemble_insignificant`: what is insignificant in a source.
-/

namespace RobotMachine

open SourceLine (SameContent Stops IsLead IsBlankLine blankContent)

/-! ## Lines of a source -/

/-- The lines of a source as they are written, with nothing taken off their ends. -/
def rawLines (source : String) : List (List Char) :=
  source.toList.splitOn '\n'

/-- The source of lines, with line feeds between them. -/
def sourceOf (lines : List (List Char)) : String :=
  String.ofList (['\n'].intercalate lines)

theorem notMem_of_mem_rawLines {source : String} {line : List Char}
    (member : line ∈ rawLines source) : '\n' ∉ line := by
  rw [rawLines] at member
  generalize source.toList = text at member
  induction text generalizing line with
  | nil =>
    rw [List.splitOn_nil, List.mem_singleton] at member
    rw [member]
    exact List.not_mem_nil
  | cons c text ih =>
    rw [List.splitOn_cons_eq_if_modifyHead] at member
    split at member
    · rcases List.mem_cons.mp member with rfl | member
      · exact List.not_mem_nil
      · exact ih member
    · next differs =>
      obtain ⟨first, others, split⟩ := List.exists_cons_of_ne_nil (List.splitOn_ne_nil '\n' text)
      rw [split] at member ih
      rcases List.mem_cons.mp member with rfl | member
      · have noFeed := ih List.mem_cons_self
        rw [List.mem_cons, not_or]
        exact ⟨fun same => differs (beq_iff_eq.mpr same.symm), noFeed⟩
      · exact ih (List.mem_cons_of_mem _ member)

theorem rawLines_sourceOf {lines : List (List Char)} (apart : ∀ line ∈ lines, '\n' ∉ line)
    (nonempty : lines ≠ []) : rawLines (sourceOf lines) = lines := by
  rw [rawLines, sourceOf, String.toList_ofList]
  exact List.splitOn_intercalate '\n' apart nonempty

/-- The scanned lines have the same contents, but for lines without any, and their instructions
stand on the same lines. -/
structure SameLines (lines lines' : List SourceLine) : Prop where
  contents_eq : contentsOf lines = contentsOf lines'
  instructionLines_eq : instructionLines lines = instructionLines lines'

namespace SameLines

variable {lines lines' : List SourceLine}

theorem of_forall₂ (same : List.Forall₂ SameContent lines lines') : SameLines lines lines' := by
  have contents : lines.map SourceLine.content = lines'.map SourceLine.content := by
    rw [← List.forall₂_eq_eq_eq, List.forall₂_map_left_iff, List.forall₂_map_right_iff]
    exact same
  refine ⟨?_, instructionLines_congr contents⟩
  rw [contentsOf, contentsOf, contents]

theorem symm (same : SameLines lines lines') : SameLines lines' lines :=
  ⟨same.contents_eq.symm, same.instructionLines_eq.symm⟩

theorem cons {src src' : SourceLine} (first : src.SameContent src')
    (others : SameLines lines lines') : SameLines (src :: lines) (src' :: lines') := by
  constructor
  · rw [contentsOf_cons, contentsOf_cons, (first : src.content = src'.content), others.contents_eq]
  · have contents : [src].map SourceLine.content = [src'].map SourceLine.content :=
      congrArg (fun content => [content]) first
    rw [← List.singleton_append, ← List.singleton_append (l := lines'), instructionLines_append,
      instructionLines_append, others.instructionLines_eq, instructionLines_congr contents]
    rfl

end SameLines

theorem scan_agree_dropCarriageReturn (line : List Char) :
    Except.Agree SameContent (SourceLine.scan (dropCarriageReturn line))
      (SourceLine.scan line) := by
  rw [dropCarriageReturn]
  split
  · next last =>
    obtain ⟨front, rfl⟩ := List.getLast?_eq_some_iff.mp last
    rw [List.dropLast_concat]
    exact SourceLine.scan_agree_return front
  · exact .refl (R := SameContent) (fun _ => rfl) _

theorem scan_agree_linesOfPieces (pieces : List (List Char)) :
    Except.Agree SameLines ((linesOfPieces pieces).mapM SourceLine.scan)
      (pieces.mapM SourceLine.scan) := by
  induction pieces with
  | nil => exact .ok ⟨rfl, rfl⟩
  | cons piece pieces ih =>
    cases pieces with
    | nil =>
      rw [linesOfPieces]
      split
      · next empty =>
        rw [empty]
        exact .ok ⟨rfl, rfl⟩
      · exact .refl (fun _ => ⟨rfl, rfl⟩) _
    | cons next pieces =>
      rw [linesOfPieces, List.mapM_cons, List.mapM_cons]
      · exact (scan_agree_dropCarriageReturn piece).bind fun _ _ first =>
          ih.bind fun _ _ others => .ok (.cons first others)
      · exact List.cons_ne_nil next pieces

theorem SameLines.exists_emit {lines lines' : List SourceLine} {l : Layout} {p : Program}
    (same : SameLines lines lines') (laidOut : Layout.ofScanned lines = .ok l)
    (emitted : l.emit = .ok p) : ∃ l', Layout.ofScanned lines' = .ok l' ∧ l'.emit = .ok p := by
  obtain ⟨l', p', laidOut', emitted', alike⟩ :=
    Layout.emit_of_contents laidOut emitted same.contents_eq
  have numbers : p.lines = p'.lines := by
    rw [Layout.lines_of_emit laidOut emitted, Layout.lines_of_emit laidOut' emitted',
      same.instructionLines_eq]
  cases alike.eq_of_lines numbers
  exact ⟨l', laidOut', emitted'⟩

/-- A source is assembled from its lines as they are written. -/
theorem assemble_eq_ok_iff {source : String} {p : Program} :
    assemble source = .ok p ↔ ∃ lines l, (rawLines source).mapM SourceLine.scan = .ok lines ∧
      Layout.ofScanned lines = .ok l ∧ l.emit = .ok p := by
  have agree := scan_agree_linesOfPieces (rawLines source)
  rw [rawLines, ← linesOf] at agree
  simp only [assemble, Except.bind_eq_ok_iff, Layout.ofLines_eq_ok_iff]
  constructor
  · rintro ⟨l, ⟨cut, scanned, laidOut⟩, emitted⟩
    rw [scanned] at agree
    obtain ⟨lines, scannedRaw, same⟩ := agree.exists_ok
    obtain ⟨l', laidOut', emitted'⟩ := same.exists_emit laidOut emitted
    exact ⟨lines, l', scannedRaw, laidOut', emitted'⟩
  · rintro ⟨lines, l, scannedRaw, laidOut, emitted⟩
    rw [rawLines] at scannedRaw
    rw [scannedRaw] at agree
    obtain ⟨cut, scanned, same⟩ := agree.symm.exists_ok
    obtain ⟨l', laidOut', emitted'⟩ := same.symm.exists_emit laidOut emitted
    exact ⟨l', ⟨cut, scanned, laidOut'⟩, emitted'⟩

/-- What the contents of its lines say of the program of a source. -/
theorem assemble_rawLines {source : String} {p : Program} (assembled : assemble source = .ok p) :
    ∃ lines, (rawLines source).mapM SourceLine.scan = .ok lines ∧
      p.lines = (instructionLines lines).map UInt32.ofNat ∧
      ∀ {source' : String} {lines' : List SourceLine},
        (rawLines source').mapM SourceLine.scan = .ok lines' →
        contentsOf lines = contentsOf lines' →
        ∃ p', assemble source' = .ok p' ∧ p.Alike p' ∧
          p'.lines = (instructionLines lines').map UInt32.ofNat := by
  obtain ⟨lines, l, scanned, laidOut, emitted⟩ := assemble_eq_ok_iff.mp assembled
  refine ⟨lines, scanned, Layout.lines_of_emit laidOut emitted, fun scanned' same => ?_⟩
  obtain ⟨l', p', laidOut', emitted', alike⟩ := Layout.emit_of_contents laidOut emitted same
  exact ⟨p', assemble_eq_ok_iff.mpr ⟨_, l', scanned', laidOut', emitted'⟩, alike,
    Layout.lines_of_emit laidOut' emitted'⟩

/-! ## Other spellings of a line -/

/-- The second line scans with the same content if the first one does. -/
def SourceLine.KeepsContent (line line' : List Char) : Prop :=
  ∀ src, scan line = .ok src → ∃ src', scan line' = .ok src' ∧ src.SameContent src'

open SourceLine (KeepsContent)

namespace SourceLine.KeepsContent

variable {line line' line'' : List Char}

theorem of_agree
    (agree : Except.Agree SameContent (scan line) (scan line')) : KeepsContent line line' := by
  intro src scanned
  rw [scanned] at agree
  exact agree.exists_ok

theorem refl (line : List Char) : KeepsContent line line :=
  fun src scanned => ⟨src, scanned, rfl⟩

theorem trans (first : KeepsContent line line') (second : KeepsContent line' line'') :
    KeepsContent line line'' := by
  intro src scanned
  obtain ⟨src', scanned', same⟩ := first src scanned
  obtain ⟨src'', scanned'', same'⟩ := second src' scanned'
  exact ⟨src'', scanned'', Eq.trans same same'⟩

end SourceLine.KeepsContent

theorem exists_scan_of_keepsContent {raw raw' : List (List Char)} {lines : List SourceLine}
    (keep : List.Forall₂ KeepsContent raw raw') (scanned : raw.mapM SourceLine.scan = .ok lines) :
    ∃ lines', raw'.mapM SourceLine.scan = .ok lines' ∧ List.Forall₂ SameContent lines lines' := by
  simp only [Except.mapM_eq_ok_iff] at scanned ⊢
  induction keep generalizing lines with
  | nil =>
    cases scanned
    exact ⟨[], .nil, .nil⟩
  | cons head _ ih =>
    obtain ⟨src, rest, scannedHead, scannedRest, rfl⟩ := List.forall₂_cons_left_iff.mp scanned
    obtain ⟨src', scannedHead', same⟩ := head src scannedHead
    obtain ⟨rest', scannedRest', sameRest⟩ := ih scannedRest
    exact ⟨src' :: rest', .cons scannedHead' scannedRest', .cons same sameRest⟩

/-- A source whose lines read as those of another one has the same program. -/
theorem assemble_of_keepsContent {source source' : String} {p : Program}
    (assembled : assemble source = .ok p)
    (keep : List.Forall₂ KeepsContent (rawLines source) (rawLines source')) :
    assemble source' = .ok p := by
  obtain ⟨lines, scanned, numbers, others⟩ := assemble_rawLines assembled
  obtain ⟨lines', scanned', same⟩ := exists_scan_of_keepsContent keep scanned
  have sameLines := SameLines.of_forall₂ same
  obtain ⟨p', assembled', alike, numbers'⟩ := others scanned' sameLines.contents_eq
  rw [← sameLines.instructionLines_eq, ← numbers] at numbers'
  rw [assembled', alike.eq_of_lines numbers'.symm]

/-- Another spelling of a line: with a comment at its end, with a carriage return behind it, with
spaces and tabs in front of it, or with letters of its head in the other case. -/
inductive Respelled : List Char → List Char → Prop
  | comment (line : List Char) {ending text : List Char} : ending = [] ∨ ending = ['\r'] →
    '\n' ∉ text → Respelled (line ++ ending) (line ++ ';' :: text ++ ending)
  | carriageReturn (line : List Char) : Respelled line (line ++ ['\r'])
  | indent (line : List Char) {blanks : List Char} : (∀ c ∈ blanks, c = ' ' ∨ c = '\t') →
    Respelled line (blanks ++ line)
  | recase {lead head head' rest : List Char} : IsLead lead → IsIdentifier head → Stops rest →
    head'.map Char.toLower = head.map Char.toLower →
    Respelled (lead ++ head ++ rest) (lead ++ head' ++ rest)

namespace Respelled

variable {line line' : List Char}

theorem keepsContent (respelled : Respelled line line') : KeepsContent line line' := by
  cases respelled with
  | @comment line ending text ends _ =>
    intro src scanned
    have bare : ∃ src', SourceLine.scan line = .ok src' ∧ src.SameContent src' := by
      rcases ends with rfl | rfl
      · rw [List.append_nil] at scanned
        exact ⟨src, scanned, rfl⟩
      · have agree := (SourceLine.scan_agree_return line).symm
        rw [scanned] at agree
        obtain ⟨src', scanned', same⟩ := agree.exists_ok
        exact ⟨src', scanned', Eq.symm same⟩
    obtain ⟨src', scanned', same⟩ := bare
    refine ⟨src', ?_, same⟩
    rw [List.append_assoc, List.cons_append]
    exact SourceLine.scan_comment scanned' (text ++ ending)
  | carriageReturn line => exact .of_agree (SourceLine.scan_agree_return line)
  | indent line blank =>
    refine .of_agree (SourceLine.scan_agree_indent (fun c member => ?_) line)
    rcases blank c member with rfl | rfl <;> rfl
  | recase isLead identifier stops lower =>
    exact .of_agree (SourceLine.scan_agree_recase isLead identifier lower.symm stops)

/-- No spelling of a line has a line feed in it. -/
theorem notMem (respelled : Respelled line line') (apart : '\n' ∉ line) : '\n' ∉ line' := by
  cases respelled with
  | @comment line ending text _ apartText =>
    simp only [List.mem_append, List.mem_cons, not_or] at apart ⊢
    exact ⟨⟨apart.1, by decide, apartText⟩, apart.2⟩
  | carriageReturn line =>
    simp only [List.mem_append, List.mem_singleton, not_or]
    exact ⟨apart, by decide⟩
  | indent line blank =>
    refine fun member => (List.mem_append.mp member).elim (fun member => ?_) apart
    exact absurd (blank '\n' member) (by decide)
  | recase _ identifier _ lower =>
    simp only [List.mem_append, not_or] at apart ⊢
    refine ⟨⟨apart.1.1, fun member => ?_⟩, apart.2⟩
    exact absurd ((identifier.recase lower.symm).goesOn '\n' member) (by decide)

/-- The head of every line that scans can be spelled with its letters in the other case. -/
theorem exists_recase {src : SourceLine} {c : Clause} (scanned : SourceLine.scan line = .ok src)
    (clause : src.clause = some c) :
    ∃ lead rest, line = lead ++ c.head.text ++ rest ∧
      ∀ head, head.map Char.toLower = c.head.text.map Char.toLower →
        Respelled line (lead ++ head ++ rest) := by
  obtain ⟨lead, rest, rfl, isLead, identifier, stops⟩ := SourceLine.exists_lead scanned clause
  exact ⟨lead, rest, rfl, fun head lower => .recase isLead identifier stops lower⟩

end Respelled

/-- Lines keep their content and stay lines in any number of steps. -/
theorem Respelled.of_steps {line line' : List Char}
    (steps : Relation.ReflTransGen Respelled line line') :
    KeepsContent line line' ∧ ('\n' ∉ line → '\n' ∉ line') := by
  induction steps with
  | refl => exact ⟨.refl _, id⟩
  | tail _ step ih => exact ⟨ih.1.trans step.keepsContent, step.notMem ∘ ih.2⟩

/-- The text with a carriage return in front of each line feed. -/
def withReturns (text : List Char) : List Char :=
  text.flatMap fun c => if c = '\n' then ['\r', '\n'] else [c]

theorem splitOn_withReturns (text : List Char) :
    List.Forall₂ (fun line line' => line' = line ∨ line' = line ++ ['\r'])
      (text.splitOn '\n') ((withReturns text).splitOn '\n') := by
  induction text with
  | nil => exact .cons (.inl rfl) .nil
  | cons c text ih =>
    rw [withReturns, List.flatMap_cons, ← withReturns]
    by_cases feed : c = '\n'
    · subst feed
      rw [if_pos rfl]
      exact .cons (.inr rfl) ih
    · have differs : ¬(c == '\n') = true := mt beq_iff_eq.mp feed
      obtain ⟨line, lines, split⟩ := List.exists_cons_of_ne_nil (List.splitOn_ne_nil '\n' text)
      obtain ⟨line', lines', split'⟩ :=
        List.exists_cons_of_ne_nil (List.splitOn_ne_nil '\n' (withReturns text))
      rw [split, split'] at ih
      obtain ⟨first, others⟩ := List.forall₂_cons.mp ih
      rw [if_neg feed, List.singleton_append, List.splitOn_cons_eq_if_modifyHead,
        List.splitOn_cons_eq_if_modifyHead, if_neg differs, if_neg differs, split, split']
      exact .cons (first.imp (congrArg (c :: ·)) (congrArg (c :: ·))) others

/-! ## Lines without content -/

theorem instruction?_of_blank {src : SourceLine} (blank : src.content = blankContent) :
    src.instruction? = none := by
  rw [SourceLine.instruction?, Option.map_eq_none_iff.mp (Prod.mk.inj blank).2]
  rfl

theorem instructionLines_insert {src : SourceLine} (none : src.instruction? = none)
    (before after : List SourceLine) :
    instructionLines (before ++ src :: after) = instructionLines before ++
      ((instructionLines after).map (· + before.length)).map (· + 1) := by
  have nothing : instructionLines [src] = [] := by
    have alone := instructionLines_concat [] src
    rw [none] at alone
    exact alone
  rw [instructionLines_append, ← List.singleton_append, instructionLines_append, nothing,
    List.nil_append, List.map_map, List.map_map]
  congr 2
  funext line
  simp only [Function.comp_apply, List.length_singleton]
  omega

/-- A line without an instruction moves the lines of the words behind it. -/
theorem map_instructionLines_insert {src : SourceLine} (none : src.instruction? = none)
    (before after : List SourceLine) :
    (instructionLines (before ++ src :: after)).map UInt32.ofNat =
      ((instructionLines (before ++ after)).map UInt32.ofNat).take (instructionsOf before).length ++
        (((instructionLines (before ++ after)).map UInt32.ofNat).drop
          (instructionsOf before).length).map (· + 1) := by
  have length : ((instructionLines before).map UInt32.ofNat).length =
      (instructionsOf before).length := by
    rw [List.length_map, length_instructionLines]
  rw [instructionLines_insert none, instructionLines_append before after, List.map_append,
    List.map_append, List.take_left' length, List.drop_left' length]
  congr 1
  simp only [List.map_map]
  congr 1
  funext number
  exact UInt32.ofNat_add ..

theorem contentsOf_insert {src : SourceLine} (blank : src.content = blankContent)
    (before after : List SourceLine) :
    contentsOf (before ++ src :: after) = contentsOf (before ++ after) := by
  have append (after : List SourceLine) :
      contentsOf (before ++ after) = contentsOf before ++ contentsOf after := by
    rw [contentsOf, List.map_append, List.filter_append]
    rfl
  rw [append, append, contentsOf_cons, if_pos blank]

theorem assemble_insert {source : String} {p : Program} (assembled : assemble source = .ok p)
    {before after : List (List Char)} {line : List Char} (cut : rawLines source = before ++ after)
    (isBlank : IsBlankLine line) (apart : '\n' ∉ line) :
    ∃ p' lines, assemble (sourceOf (before ++ line :: after)) = .ok p' ∧ p.Alike p' ∧
      before.mapM SourceLine.scan = .ok lines ∧
      p'.lines = p.lines.take (instructionsOf lines).length ++
        (p.lines.drop (instructionsOf lines).length).map (· + 1) := by
  obtain ⟨lines, scanned, numbers, others⟩ := assemble_rawLines assembled
  obtain ⟨src, scannedLine, blank⟩ := isBlank.scan_eq
  have apartAll : ∀ raw ∈ before ++ line :: after, '\n' ∉ raw := by
    have apartRaw : ∀ raw ∈ before ++ after, '\n' ∉ raw := fun raw member =>
      notMem_of_mem_rawLines (cut ▸ member)
    obtain ⟨apartBefore, apartAfter⟩ := List.forall_mem_append.mp apartRaw
    exact List.forall_mem_append.mpr ⟨apartBefore, List.forall_mem_cons.mpr ⟨apart, apartAfter⟩⟩
  rw [cut] at scanned
  obtain ⟨front, back, scannedFront, scannedBack, rfl⟩ := Except.mapM_append_eq_ok_iff.mp scanned
  have nonempty : before ++ line :: after ≠ [] :=
    List.append_ne_nil_of_right_ne_nil before (List.cons_ne_nil line after)
  have scanned' : (rawLines (sourceOf (before ++ line :: after))).mapM SourceLine.scan =
      .ok (front ++ src :: back) := by
    rw [rawLines_sourceOf apartAll nonempty]
    refine Except.mapM_append_eq_ok_iff.mpr ⟨front, src :: back, scannedFront, ?_, rfl⟩
    rw [List.mapM_cons, scannedLine, scannedBack]
    rfl
  have contents := contentsOf_insert blank front back
  obtain ⟨p', assembled', alike, numbers'⟩ := others scanned' contents.symm
  refine ⟨p', front, assembled', alike, scannedFront, ?_⟩
  rw [numbers', numbers, map_instructionLines_insert (instruction?_of_blank blank)]

/-! ## Sources -/

/-- What is insignificant in a source. Its lines can be spelled in other ways, its line ends can all
get a carriage return, and a line without content that is added to it moves the numbers of the lines
behind it up by one. -/
theorem assemble_insignificant {source : String} {p : Program}
    (assembled : assemble source = .ok p) :
    (∀ lines, List.Forall₂ (Relation.ReflTransGen Respelled) (rawLines source) lines →
      assemble (sourceOf lines) = .ok p) ∧
    assemble (String.ofList (withReturns source.toList)) = .ok p ∧
    ∀ before after line, rawLines source = before ++ after → IsBlankLine line → '\n' ∉ line →
      ∃ p' lines, assemble (sourceOf (before ++ line :: after)) = .ok p' ∧
        p'.code = p.code ∧ p'.data = p.data ∧ p'.symbols = p.symbols ∧
        before.mapM SourceLine.scan = .ok lines ∧
        p'.lines = p.lines.take (instructionsOf lines).length ++
          (p.lines.drop (instructionsOf lines).length).map (· + 1) := by
  refine ⟨fun lines respelled => ?_, ?_, fun before after line cut isBlank apart => ?_⟩
  · have keep : List.Forall₂ KeepsContent (rawLines source) lines :=
      respelled.imp fun _ _ steps => (Respelled.of_steps steps).1
    have apart : ∀ line ∈ lines, '\n' ∉ line :=
      forall_mem_imp_of_forall₂ respelled (fun _ _ steps => (Respelled.of_steps steps).2)
        fun _ => notMem_of_mem_rawLines
    have nonempty : lines ≠ [] := by
      rintro rfl
      exact List.splitOn_ne_nil _ _ (List.forall₂_nil_right_iff.mp respelled)
    refine assemble_of_keepsContent assembled ?_
    rw [rawLines_sourceOf apart nonempty]
    exact keep
  · refine assemble_of_keepsContent assembled ?_
    rw [rawLines, rawLines, String.toList_ofList]
    refine (splitOn_withReturns source.toList).imp fun line line' ends => ?_
    rcases ends with rfl | rfl
    · exact .refl _
    · exact (Respelled.carriageReturn line).keepsContent
  · obtain ⟨p', lines, assembled', alike, scanned, numbers⟩ :=
      assemble_insert assembled cut isBlank apart
    exact ⟨p', lines, assembled', alike.code_eq.symm, alike.data_eq.symm, alike.symbols_eq.symm,
      scanned, numbers⟩

/-- A labelled instruction and another one behind it. -/
def twoLines : String :=
  "on: MOV R0, #4\nHALT"

theorem assemble_insignificant_twoLines :
    ∃ p p', assemble twoLines = .ok p ∧ p.lines = [1, 2] ∧
      assemble "on: mov R0, #4;up\n\tHaLt\r" = .ok p ∧
      assemble "on: MOV R0, #4\r\nHALT" = .ok p ∧
      assemble "on: MOV R0, #4\n //up\nHALT" = .ok p' ∧
      p'.code = p.code ∧ p'.data = p.data ∧ p'.symbols = p.symbols ∧ p'.lines = [1, 3] := by
  have found : (assemble twoLines).toOption.map Program.lines = some [1, 2] := by decide +kernel
  obtain ⟨p, assembled, numbers⟩ := Option.map_eq_some_iff.mp found
  rw [Except.toOption_eq_some_iff] at assembled
  obtain ⟨respelled, returned, inserted⟩ := assemble_insignificant assembled
  have isLead : IsLead ([] ++ ['o', 'n'] ++ ':' :: [' ']) :=
    .label nofun ⟨⟨'o', ['n'], rfl, rfl⟩, List.all_eq_true.mp rfl⟩ (List.all_eq_true.mp rfl)
  have noLead : IsLead [] := .blanks nofun
  have mov : IsIdentifier ['M', 'O', 'V'] := ⟨⟨'M', ['O', 'V'], rfl, rfl⟩, List.all_eq_true.mp rfl⟩
  have halt : IsIdentifier ['H', 'A', 'L', 'T'] :=
    ⟨⟨'H', ['A', 'L', 'T'], rfl, rfl⟩, List.all_eq_true.mp rfl⟩
  have operands : Stops [' ', 'R', '0', ',', ' ', '#', '4'] := by
    rintro c ⟨⟩
    decide
  have nothing : Stops [] := nofun
  have first : Relation.ReflTransGen Respelled
      ['o', 'n', ':', ' ', 'M', 'O', 'V', ' ', 'R', '0', ',', ' ', '#', '4']
      ['o', 'n', ':', ' ', 'm', 'o', 'v', ' ', 'R', '0', ',', ' ', '#', '4', ';', 'u', 'p'] := by
    have lower : ['m', 'o', 'v'].map Char.toLower = ['M', 'O', 'V'].map Char.toLower := by decide
    have recased := Respelled.recase isLead mov operands lower
    have noFeed : '\n' ∉ ['u', 'p'] := by decide
    have commented := Respelled.comment
      ['o', 'n', ':', ' ', 'm', 'o', 'v', ' ', 'R', '0', ',', ' ', '#', '4'] (.inl rfl) noFeed
    exact .tail (.single recased) commented
  have second : Relation.ReflTransGen Respelled ['H', 'A', 'L', 'T']
      ['\t', 'H', 'a', 'L', 't', '\r'] := by
    have lower : ['H', 'a', 'L', 't'].map Char.toLower = ['H', 'A', 'L', 'T'].map Char.toLower := by
      decide
    have recased := Respelled.recase noLead halt nothing lower
    have tab : ∀ c ∈ ['\t'], c = ' ' ∨ c = '\t' := List.forall_mem_singleton.mpr (.inr rfl)
    exact .tail (.tail (.single recased) (.indent _ tab)) (.carriageReturn _)
  have raw : rawLines twoLines =
      [['o', 'n', ':', ' ', 'M', 'O', 'V', ' ', 'R', '0', ',', ' ', '#', '4'],
        ['H', 'A', 'L', 'T']] := by
    decide +kernel
  have blank : IsBlankLine [' ', '/', '/', 'u', 'p'] := by
    have space : ∀ c ∈ [' '], isAsciiBlank c = true := List.forall_mem_singleton.mpr rfl
    exact .slashes ['u', 'p'] space
  obtain ⟨p', lines, assembled', code, data, symbols, scanned, numbers'⟩ :=
    inserted [_] [_] _ raw blank (by decide)
  have counted : ([['o', 'n', ':', ' ', 'M', 'O', 'V', ' ', 'R', '0', ',', ' ', '#', '4']].mapM
      SourceLine.scan).toOption.map (fun lines => (instructionsOf lines).length) = some 1 := by
    decide +kernel
  rw [scanned] at counted
  have one : (instructionsOf lines).length = 1 := Option.some.inj counted
  rw [one, numbers] at numbers'
  have spelled := List.Forall₂.cons first (.cons second .nil)
  rw [← raw] at spelled
  have assembledRespelled := respelled _ spelled
  have respelling : sourceOf [['o', 'n', ':', ' ', 'm', 'o', 'v', ' ', 'R', '0', ',', ' ', '#', '4',
      ';', 'u', 'p'], ['\t', 'H', 'a', 'L', 't', '\r']] = "on: mov R0, #4;up\n\tHaLt\r" := by
    decide +kernel
  have returning : String.ofList (withReturns twoLines.toList) = "on: MOV R0, #4\r\nHALT" := by
    decide +kernel
  have inserting :
      sourceOf ([['o', 'n', ':', ' ', 'M', 'O', 'V', ' ', 'R', '0', ',', ' ', '#', '4']] ++
        [' ', '/', '/', 'u', 'p'] :: [['H', 'A', 'L', 'T']]) =
      "on: MOV R0, #4\n //up\nHALT" := by
    decide +kernel
  rw [respelling] at assembledRespelled
  rw [returning] at returned
  rw [inserting] at assembled'
  exact ⟨p, p', assembled, numbers, assembledRespelled, returned, assembled', code, data, symbols,
    numbers'⟩

end RobotMachine
