import XmlIndex.Proofs.Guarded.Agreement
import XmlIndex.Proofs.Lexer.Invariants
import XmlIndex.Proofs.Lexer.Start
import XmlIndex.Proofs.Translation.Run

/-! # Declared labels

A lexer that comes to the value of an encoding declaration has read a known text up to there, and takes the encoding
over or fails; what follows leaves the encoding alone. A lexer that gets past the start of a document without such a
value has kept its encoding.
-/
namespace XmlIndex
set_option autoImplicit false

namespace Grammar

/-- What may stand as the name of an encoding, be there such an encoding or not. -/
structure Declaration.IsName (value : Chars) : Prop where
  allowed : ∀ ch ∈ value, EncodingLabel.isAllowed ch = true
  short : value.length ≤ EncodingLabel.maxLength

/-- A declaration up to the name of the encoding. -/
structure Labeling where
  letters : Chars
  version : Attribute
  encoding : Attribute

namespace Labeling

def text (l : Labeling) : Chars :=
  CodePoint.lessThan :: CodePoint.question :: (l.letters ++ (l.version.text ++ l.encoding.text))

def label (l : Labeling) : String :=
  String.ofList (l.encoding.binding.value.map Char.ofNat)

structure WellFormed (l : Labeling) : Prop where
  letters : Matches Instruction.reserved l.letters
  version : Declaration.Part "version" Declaration.IsVersion l.version
  encoding : Declaration.Part "encoding" Declaration.IsName l.encoding

end Labeling

/-- A text begins with a declaration that gives the label as the name of its encoding. -/
def Declares (text : Chars) (label : String) : Prop :=
  ∃ l : Labeling, l.WellFormed ∧ l.label = label ∧ l.text <+: text

end Grammar

open Grammar

namespace Lex
variable {α : Type} {s s' : Lexer} {u : Unit} {space : Chars} {ch : CodePoint} {e : Encoding}

theorem keeps_encoding_read {action : Scan α} (hSteady : Scan.Steady action) :
    Keeps (fun s => s.cursor.encoding = e) (read action) := by
  intro s a s' hEncoding hOk
  obtain ⟨c', hScan, rfl⟩ := read_eq_ok_iff.mp hOk
  have hMoved := Guarded.moved_of_steady hSteady s.cursor
  rw [hScan] at hMoved
  exact hMoved.encoding_eq.trans hEncoding

theorem keeps_encoding_emitUnits {kind : TokenKind} {place count : Nat} :
    Keeps (fun s => s.cursor.encoding = e) (emitUnits kind place count) :=
  (keeps_look _).bind fun _ => keeps_update fun _ hEncoding => hEncoding

theorem keeps_encoding_standaloneDeclaration : Keeps (fun s => s.cursor.encoding = e) standaloneDeclaration :=
  (keeps_encoding_read Scan.steady_last).bind fun _ => (keeps_encoding_read (Scan.steady_skipAll _)).bind fun _ =>
    (keeps_require _ _).bind fun _ => keeps_encoding_emitUnits.bind fun _ =>
      (keeps_encoding_read Scan.steady_openValue).bind fun _ => (keeps_encoding_read Scan.steady_offset).bind fun _ =>
        (keeps_encoding_read Scan.steady_standaloneAnswer).bind fun _ => keeps_encoding_emitUnits.bind fun _ =>
          keeps_encoding_read (Scan.steady_closeValue _)

def optionalStandalone (found : CodePoint × Bool) : Lex CodePoint :=
  if found.2 && found.1 = 0x73 then do
    standaloneDeclaration
    read Scan.nextAfterSpace
  else return found.1

def closeDeclaration (ch : CodePoint) : Lex Unit := do
  require (ch = CodePoint.question) .declarationEnd
  require (← read (Scan.skip CodePoint.greaterThan)) .declarationEnd
  let ch ← read Scan.nextAfterSpace
  require (ch = CodePoint.lessThan) .afterDeclaration

def restOfDeclaration (found : CodePoint × Bool) : Lex Unit :=
  optionalStandalone found >>= closeDeclaration

theorem keeps_encoding_restOfDeclaration {found : CodePoint × Bool} :
    Keeps (fun s => s.cursor.encoding = e) (restOfDeclaration found) := by
  apply Keeps.bind
  · apply Keeps.ite
    · exact keeps_encoding_standaloneDeclaration.bind fun _ => keeps_encoding_read Scan.steady_nextAfterSpace
    · exact keeps_pure _
  · intro ch
    exact (keeps_require _ _).bind fun _ => (keeps_encoding_read (Scan.steady_skip _)).bind fun _ =>
      (keeps_require _ _).bind fun _ => (keeps_encoding_read Scan.steady_nextAfterSpace).bind fun _ =>
        keeps_require _ _

theorem declaration_eq : declaration ch = (do
    versionDeclaration ch
    let found ← read Scan.nextSpaced
    if found.2 && found.1 = 0x65 then do
      encodingDeclaration
      let found ← read Scan.nextSpaced
      restOfDeclaration found
    else restOfDeclaration found) := by
  simp only [declaration, optionalDeclarations, optionalEncoding, restOfDeclaration, optionalStandalone, bind_assoc,
    Guarded.Lexing.ite_bind, pure_bind]
  rfl

theorem bind_of_same {β : Type} {action action' : Lex α} {next : α → Lex β} (hSame : action s = action' s') :
    (action >>= next) s = (action' >>= next) s' := by
  change EStateM.bind _ _ _ = EStateM.bind _ _ _
  rw [EStateM.bind, EStateM.bind, hSame]

theorem declareEncoding_of_error {label : String} {cause : EncodingFault}
    (hError : reconcile s.mark s.cursor.encoding label = .error cause) :
    declareEncoding label s = .error (.encoding cause) s := by
  have hMark : look (·.mark) s = .ok s.mark s := rfl
  have hEncoding : read Scan.encoding s = .ok s.cursor.encoding s := rfl
  rw [declareEncoding, bind_of_ok hMark, bind_of_ok hEncoding, hError]
  rfl

section
variable (hText : s.cursor.Reads (space ++ [0x65]))
include hText

/-- The part is read up to the closing quote before its value is looked at. -/
theorem encodingDeclaration_of_part {a : Attribute} (hDepth : s.depth = -1)
    (hPart : Declaration.Part "encoding" Declaration.IsName a) (hSpace : a.space = space)
    (hReads : s.cursor.Reads a.text) : encodingDeclaration (s.past (space ++ [0x65])) =
      declareEncoding (String.ofList (a.binding.value.map Char.ofNat)) (s.pastPart a) := by
  obtain ⟨space', name, b⟩ := a
  obtain ⟨⟨-, -, hWell⟩, rfl, hName⟩ := hPart
  obtain rfl : space' = space := hSpace
  obtain ⟨hOpening, hValue⟩ := (@reads_part _ _ _ { b with value := [] } b.value).mp hReads
  have hOpen := (openPart_encoding_eq_ok_iff hText).mpr
    ⟨{ b with value := [] }, ⟨hWell.before, hWell.after, hWell.quote⟩, rfl, hOpening, rfl, rfl⟩
  have hLabel := (read_label_eq_ok_iff hWell.quote).mpr ⟨b.value, hValue, hName.allowed, hName.short, rfl, rfl⟩
  have hState := @pastPart_eq s space' (CodePoint.ofText "encoding") { b with value := [] } b.value hDepth
  rw [Lexer.add_past, ← Lexer.past_append] at hState
  rw [encodingDeclaration_eq, bind_of_ok hOpen, bind_of_ok hLabel,
    bind_of_ok (read_last_eq_ok_iff.mpr ⟨rfl, rfl⟩), bind_of_ok (a := ()) (emit_eq_ok_iff.mpr rfl)]
  simp only [Lexer.cursor_past, Cursor.last_advance_append, offset_pastOpening, Nat.add_sub_cancel_left,
    Cursor.encoding_advance, encoding_pastOpening]
  rw [← hDepth] at hState
  exact congrArg (declareEncoding _) hState

theorem exists_part_of_encodingDeclaration (hSpace : IsSpace space) (hNonempty : space ≠ [])
    (hOk : encodingDeclaration (s.past (space ++ [0x65])) = .ok u s') : ∃ a : Attribute,
      Declaration.Part "encoding" Declaration.IsName a ∧ a.space = space ∧ s.cursor.Reads a.text := by
  rw [encodingDeclaration_eq] at hOk
  obtain ⟨_, _, hOpen, hOk⟩ := bind_eq_ok_iff.mp hOk
  obtain ⟨b, hWell, -, hOpening, rfl, rfl⟩ := (openPart_encoding_eq_ok_iff hText).mp hOpen
  obtain ⟨_, _, hLabel, -⟩ := bind_eq_ok_iff.mp hOk
  obtain ⟨value, hReads, hAllowed, hShort, -, -⟩ := (read_label_eq_ok_iff hWell.quote).mp hLabel
  exact ⟨part space (CodePoint.ofText "encoding") b value,
    ⟨⟨hNonempty, hSpace, hWell.before, hWell.after, hWell.quote⟩, rfl, ⟨hAllowed, hShort⟩⟩, rfl,
    reads_part.mpr ⟨hOpening, hReads⟩⟩

end

/-- A declaration that names an encoding goes on with taking it over. -/
theorem declaration_of_parts {version encoding : Attribute} (hDepth : s.depth = -1)
    (hVersion : Declaration.Part "version" Declaration.IsVersion version)
    (hEncoding : Declaration.Part "encoding" Declaration.IsName encoding)
    (hReads : s.cursor.Reads (version.text ++ encoding.text)) :
    declaration 0x76 (s.past (version.space ++ [0x76])) = (do
      declareEncoding (String.ofList (encoding.binding.value.map Char.ofNat))
      let found ← read Scan.nextSpaced
      restOfDeclaration found) ((s.pastPart version).pastPart encoding) := by
  obtain ⟨hFirst, hSecond⟩ := Cursor.reads_append.mp hReads
  have hSecond : (s.pastPart version).cursor.Reads encoding.text := hSecond
  have hText : s.cursor.Reads (version.space ++ [0x76]) := reads_first_of_part hVersion rfl hFirst
  have hNext : (s.pastPart version).cursor.Reads (encoding.space ++ [0x65]) := reads_first_of_part hEncoding rfl hSecond
  have hSpaced : (!encoding.space.isEmpty) = true := by
    rw [Bool.not_eq_true', List.isEmpty_eq_false_iff]
    exact hEncoding.nonempty
  have hVersionOk : versionDeclaration 0x76 (s.past (version.space ++ [0x76])) = .ok () (s.pastPart version) :=
    (versionDeclaration_eq_ok_iff hDepth hVersion.space hVersion.nonempty hText).mpr
    ⟨version, hVersion, rfl, hFirst, rfl⟩
  have hNextOk := read_nextSpaced_eq_ok_iff.mpr
    ⟨encoding.space, hNext, hEncoding.space, by decide, hSpaced.symm, rfl⟩
  rw [declaration_eq, bind_of_ok hVersionOk, bind_of_ok hNextOk, if_pos (by decide)]
  exact bind_of_same (encodingDeclaration_of_part hNext (by exact hDepth) hEncoding rfl hSecond)

/-- Without the name of an encoding, a declaration leaves the encoding as it is. -/
theorem exists_parts_of_declaration (hDepth : s.depth = -1) (hSpace : IsSpace space) (hNonempty : space ≠ [])
    (hText : s.cursor.Reads (space ++ [ch])) (hOk : declaration ch (s.past (space ++ [ch])) = .ok u s') :
    s'.cursor.encoding = s.cursor.encoding ∨ ∃ version encoding : Attribute,
      Declaration.Part "version" Declaration.IsVersion version ∧
        Declaration.Part "encoding" Declaration.IsName encoding ∧
          s.cursor.Reads (version.text ++ encoding.text) := by
  rw [declaration_eq] at hOk
  obtain ⟨_, _, hVersionOk, hOk⟩ := bind_eq_ok_iff.mp hOk
  obtain ⟨version, hVersion, -, hReads, rfl⟩ :=
    (versionDeclaration_eq_ok_iff hDepth hSpace hNonempty hText).mp hVersionOk
  obtain ⟨⟨next, _⟩, _, hNext, hOk⟩ := bind_eq_ok_iff.mp hOk
  obtain ⟨space, hNextText, hNextSpace, -, rfl, rfl⟩ := read_nextSpaced_eq_ok_iff.mp hNext
  split at hOk
  · rename_i hFound
    rw [Bool.and_eq_true, decide_eq_true_eq] at hFound
    obtain ⟨hSpaced, hFirst⟩ := hFound
    obtain rfl : next = 0x65 := hFirst
    have hSome : space ≠ [] := by
      rintro rfl
      cases hSpaced
    obtain ⟨_, _, hEncodingOk, -⟩ := bind_eq_ok_iff.mp hOk
    obtain ⟨encoding, hEncoding, -, hMore⟩ :=
      exists_part_of_encodingDeclaration hNextText hNextSpace hSome hEncodingOk
    exact .inr ⟨version, encoding, hVersion, hEncoding, Cursor.reads_append.mpr ⟨hReads, hMore⟩⟩
  · refine .inl (keeps_encoding_restOfDeclaration _ _ _ ?_ hOk)
    exact Cursor.encoding_advance.trans Cursor.encoding_advance

def pastLabeling (s : Lexer) (l : Labeling) : Lexer :=
  ((s.past (CodePoint.lessThan :: CodePoint.question :: l.letters)).pastPart l.version).pastPart l.encoding

theorem encoding_pastLabeling {l : Labeling} : (pastLabeling s l).cursor.encoding = s.cursor.encoding :=
  Cursor.encoding_advance.trans (Cursor.encoding_advance.trans Cursor.encoding_advance)

/-- A document that names its encoding starts with taking it over. -/
theorem start_of_labeling {l : Labeling} (hDepth : s.depth = -1) (hWell : l.WellFormed)
    (hReads : s.cursor.Reads l.text) : start s = (do
      declareEncoding l.label
      let found ← read Scan.nextSpaced
      restOfDeclaration found
      return Phase.markup) (pastLabeling s l) := by
  have hSplit : l.text = (CodePoint.lessThan :: CodePoint.question :: l.letters) ++
      (l.version.text ++ l.encoding.text) := by
    simp [Labeling.text]
  rw [hSplit] at hReads
  obtain ⟨hLetters, hParts⟩ := Cursor.reads_append.mp hReads
  have hText : (s.past (CodePoint.lessThan :: CodePoint.question :: l.letters)).cursor.Reads
      (l.version.space ++ [0x76]) :=
    reads_first_of_part hWell.version rfl (Cursor.reads_append.mp hParts).1
  have hOpens := Cursor.reads_append.mpr ⟨hLetters, hText⟩
  rw [start_of_opens hWell.letters hWell.version.space hWell.version.nonempty (by decide) hOpens,
    bind_of_same (declaration_of_parts (by exact hDepth) hWell.version hWell.encoding hParts)]
  simp only [bind_assoc]
  rfl

section
variable {phase : Phase} {l : Labeling} (hDepth : s.depth = -1)
include hDepth

theorem start_of_labeling_error {cause : EncodingFault} (hWell : l.WellFormed) (hReads : s.cursor.Reads l.text)
    (hError : reconcile s.mark s.cursor.encoding l.label = .error cause) :
    start s = .error (.encoding cause) (pastLabeling s l) := by
  rw [start_of_labeling hDepth hWell hReads]
  apply Lex.bind_of_error
  apply declareEncoding_of_error
  rw [encoding_pastLabeling]
  exact hError

/-- What is taken over is the encoding from then on. -/
theorem reconcile_of_start (hWell : l.WellFormed) (hReads : s.cursor.Reads l.text) (hOk : start s = .ok phase s') :
    reconcile s.mark s.cursor.encoding l.label = .ok s'.cursor.encoding := by
  rw [start_of_labeling hDepth hWell hReads] at hOk
  obtain ⟨_, t, hDeclare, hOk⟩ := bind_eq_ok_iff.mp hOk
  obtain ⟨e, hReconcile, rfl⟩ := declareEncoding_eq_ok hDeclare
  have hKeeps : Keeps (fun s => s.cursor.encoding = e) (do
      let found ← read Scan.nextSpaced
      restOfDeclaration found
      return Phase.markup) :=
    (keeps_encoding_read Scan.steady_nextSpaced).bind fun _ => keeps_encoding_restOfDeclaration.bind fun _ =>
      keeps_pure _
  have hEncoding : s'.cursor.encoding = e := hKeeps _ _ _ rfl hOk
  rw [encoding_pastLabeling] at hReconcile
  rw [hEncoding]
  exact hReconcile

/-- A document that names no encoding keeps the one in which it starts. -/
theorem labeling_of_start (hOk : start s = .ok phase s') :
    s'.cursor.encoding = s.cursor.encoding ∨ ∃ l : Labeling, l.WellFormed ∧ s.cursor.Reads l.text := by
  obtain ⟨rfl, ⟨-, place, rfl⟩ | ⟨space, -, -, rfl⟩ |
    ⟨letters, space, first, hLetters, hSpace, hNonempty, hReads, hText, hDeclaration⟩⟩ := start_cases hOk
  · exact .inl Cursor.encoding_advance
  · exact .inl Cursor.encoding_advance
  · have hFound := exists_parts_of_declaration (by exact hDepth) hSpace hNonempty hText hDeclaration
    obtain hSame | ⟨version, encoding, hVersion, hEncoding, hParts⟩ := hFound
    · exact .inl (hSame.trans Cursor.encoding_advance)
    · exact .inr ⟨⟨letters, version, encoding⟩, ⟨hLetters, hVersion, hEncoding⟩,
        Cursor.reads_append.mpr ⟨hReads, hParts⟩⟩

end

end Lex
end XmlIndex
