import XmlIndex.Proofs.Lexer.DeclaredLabels
import XmlIndex.Proofs.Parse.Persistence

/-! # Which encoding a document is in

A byte order mark settles the encoding of a document, and so does `<?` in 16-bit units; otherwise its declaration
names it, or it is UTF-8. A document whose declaration names another one than is settled, or none that there is, is
not parsed.
-/
namespace XmlIndex
set_option autoImplicit false
open Grammar

/-- The encoding of documents that begin with a byte order mark or with `<?` in 16-bit units. -/
def Encoding.fixedBy? : List Nat → Option Encoding
  | 0xEF :: 0xBB :: 0xBF :: _ => some .utf8
  | 0xFE :: 0xFF :: _ => some (.utf16 .big)
  | 0xFF :: 0xFE :: _ => some (.utf16 .little)
  | 0x00 :: 0x3C :: 0x00 :: 0x3F :: _ => some (.utf16 .big)
  | 0x3C :: 0x00 :: 0x3F :: 0x00 :: _ => some (.utf16 .little)
  | _ => none

def Encoding.initial (bytes : List Nat) : Encoding :=
  (fixedBy? bytes).getD .utf8

/-- Either the byte order is fixed, or UTF-8 is by its mark, or nothing is. -/
theorem Detected.cases_of_ofHead {bytes : List Nat} {detected : Detected}
    (hHead : Detected.ofHead bytes = .ok detected) :
    (∃ order, Encoding.fixedBy? bytes = some (.utf16 order) ∧ detected.encoding = .utf16 order) ∨
      Encoding.fixedBy? bytes = some .utf8 ∧ detected = ⟨.utf8, .utf8⟩ ∨
      Encoding.fixedBy? bytes = none ∧ detected = ⟨.utf8, .none⟩ := by
  unfold Detected.ofHead at hHead
  split at hHead <;> cases hHead
  case h_1 => exact .inl ⟨.big, rfl, rfl⟩
  case h_3 => exact .inl ⟨.little, rfl, rfl⟩
  case h_5 => exact .inr (.inl ⟨rfl, rfl⟩)
  case h_7 => exact .inl ⟨.big, rfl, rfl⟩
  case h_8 => exact .inl ⟨.little, rfl, rfl⟩
  case h_11 =>
    refine .inr (.inr ⟨?_, rfl⟩)
    unfold Encoding.fixedBy?
    split <;> simp_all

theorem Detected.encoding_of_ofHead {bytes : List Nat} {detected : Detected}
    (hHead : Detected.ofHead bytes = .ok detected) : detected.encoding = Encoding.initial bytes := by
  unfold Encoding.initial
  obtain ⟨order, hSome, hOrder⟩ | ⟨hSome, rfl⟩ | ⟨hNone, rfl⟩ := Detected.cases_of_ofHead hHead
  · rw [hSome, hOrder]
    rfl
  · rw [hSome]
    rfl
  · rw [hNone]
    rfl

namespace EncodingLabel

/-- The name that leaves the byte order open, in capital letters or small ones. -/
def IsUtf16 (label : String) : Prop :=
  label.toList.map Char.toUpper = "UTF-16".toList

/-- What a document that begins with the bytes may not name as its encoding. -/
inductive Refused (bytes : List Nat) (label : String) : Prop where
  | unknown : ¬IsUtf16 label → Encoding.ofLabel? label = none → Refused bytes label
  | unmarked : IsUtf16 label → ByteOrderMark.ofHead bytes ≠ .utf16 → Refused bytes label
  | other {fixed declared : Encoding} : Encoding.fixedBy? bytes = some fixed →
      Encoding.ofLabel? label = some declared → declared ≠ fixed → Refused bytes label
  | wide {order : ByteOrder} : Encoding.fixedBy? bytes = none →
      Encoding.ofLabel? label = some (.utf16 order) → Refused bytes label

theorem ofLabel?_of_isUtf16 {label : String} (hUtf16 : IsUtf16 label) : Encoding.ofLabel? label = none := by
  unfold Encoding.ofLabel?
  rw [hUtf16]
  decide

end EncodingLabel

section
variable {mark : ByteOrderMark} {current declared : Encoding} {label : String}

theorem reconcile_of_isUtf16 (hUtf16 : EncodingLabel.IsUtf16 label) : reconcile mark current label =
    if !current.isUtf16 then .error (.noSwitch current "UTF-16")
    else if mark = .utf16 then .ok current
    else .error .unmarkedUtf16 :=
  if_pos hUtf16

theorem reconcile_of_unknown (hOther : ¬EncodingLabel.IsUtf16 label) (hNone : Encoding.ofLabel? label = none) :
    reconcile mark current label = .error (.unknownLabel label) := by
  refine (if_neg hOther).trans ?_
  rw [hNone]

section
variable (hLabel : Encoding.ofLabel? label = some declared)
include hLabel

theorem not_isUtf16_of_ofLabel? : ¬EncodingLabel.IsUtf16 label := by
  intro hUtf16
  rw [EncodingLabel.ofLabel?_of_isUtf16 hUtf16] at hLabel
  cases hLabel

/-- With two bytes to a unit, nothing but the encoding itself may be declared. -/
theorem reconcile_wide {order : ByteOrder} : reconcile mark (.utf16 order) label =
    if declared = .utf16 order then .ok (.utf16 order) else .error (.contradicted declared (.utf16 order)) := by
  refine (if_neg (not_isUtf16_of_ofLabel? hLabel)).trans ?_
  rw [hLabel]
  exact if_pos rfl

/-- With one byte to a unit, any other encoding of that kind may be declared unless there is a mark. -/
theorem reconcile_narrow (hNarrow : current.isUtf16 = false) : reconcile mark current label =
    if declared.isUtf16 then .error (.noSwitch current declared.name)
    else if mark = .utf8 ∧ declared ≠ .utf8 then .error (.marked declared)
    else .ok declared := by
  refine (if_neg (not_isUtf16_of_ofLabel? hLabel)).trans ?_
  rw [hLabel, hNarrow]
  rfl

end

end

section
variable {bytes : List Nat} {detected : Detected} {label : String} (hHead : Detected.ofHead bytes = .ok detected)
include hHead

theorem exists_error_of_refused (hRefused : EncodingLabel.Refused bytes label) :
    ∃ cause, reconcile detected.mark detected.encoding label = .error cause := by
  cases hRefused with
  | unknown hOther hNone => exact ⟨_, reconcile_of_unknown hOther hNone⟩
  | unmarked hUtf16 hMark =>
    rw [ByteOrderMark.ofHead_eq hHead] at hMark
    rw [reconcile_of_isUtf16 hUtf16, if_neg hMark]
    split
    · exact ⟨_, rfl⟩
    · exact ⟨_, rfl⟩
  | other hFixed hLabel hNe =>
    obtain ⟨order, hSome, hOrder⟩ | ⟨hSome, rfl⟩ | ⟨hNone, -⟩ := Detected.cases_of_ofHead hHead
    · obtain rfl := Option.some.inj (hSome.symm.trans hFixed)
      rw [hOrder, reconcile_wide hLabel, if_neg hNe]
      exact ⟨_, rfl⟩
    · obtain rfl := Option.some.inj (hSome.symm.trans hFixed)
      rw [reconcile_narrow hLabel rfl, if_pos (And.intro rfl hNe)]
      split
      · exact ⟨_, rfl⟩
      · exact ⟨_, rfl⟩
    · cases hNone.symm.trans hFixed
  | wide hNone hLabel =>
    obtain ⟨order, hSome, -⟩ | ⟨hSome, -⟩ | ⟨-, rfl⟩ := Detected.cases_of_ofHead hHead
    · cases hNone.symm.trans hSome
    · cases hNone.symm.trans hSome
    · exact ⟨_, reconcile_narrow hLabel rfl⟩

/-- What is taken over is fixed, or else declared. -/
theorem fixedBy?_of_reconcile {e : Encoding} (hOk : reconcile detected.mark detected.encoding label = .ok e) :
    Encoding.fixedBy? bytes = some e ∨ Encoding.fixedBy? bytes = none ∧ Encoding.ofLabel? label = some e := by
  by_cases hUtf16 : EncodingLabel.IsUtf16 label
  · rw [reconcile_of_isUtf16 hUtf16] at hOk
    obtain ⟨order, hSome, hOrder⟩ | ⟨-, rfl⟩ | ⟨-, rfl⟩ := Detected.cases_of_ofHead hHead
    · rw [hOrder] at hOk
      split at hOk
      · cases hOk
      · split at hOk <;> cases hOk
        exact .inl hSome
    · cases hOk
    · cases hOk
  · cases hLabel : Encoding.ofLabel? label with
    | none =>
      rw [reconcile_of_unknown hUtf16 hLabel] at hOk
      cases hOk
    | some declared =>
      obtain ⟨order, hSome, hOrder⟩ | ⟨hSome, rfl⟩ | ⟨hNone, rfl⟩ := Detected.cases_of_ofHead hHead
      · rw [hOrder, reconcile_wide hLabel] at hOk
        split at hOk <;> cases hOk
        exact .inl hSome
      · rw [reconcile_narrow hLabel rfl] at hOk
        split at hOk
        · cases hOk
        · split at hOk <;> cases hOk
          rename_i hSame
          have hUtf8 : e = .utf8 := by
            by_contra hNe
            exact hSame ⟨rfl, hNe⟩
          exact .inl (hUtf8 ▸ hSome)
      · rw [reconcile_narrow hLabel rfl] at hOk
        split at hOk
        · cases hOk
        · split at hOk <;> cases hOk
          exact .inr ⟨hNone, rfl⟩

end

theorem Encoding.characters_of_error {e : Encoding} {doc : ByteArray} {stop i : Nat} {fault : DecodeFault}
    (hError : e.decodeAt doc stop i = .error fault) : (e.decodeFrom doc stop i).1 = [] := by
  by_cases hStop : i < stop
  · rw [Encoding.decodeFrom_of_error hStop hError]
  · rw [Encoding.decodeFrom_of_le (Nat.not_lt.mp hStop)]

/-- What can be read of a text begins the characters that there are. -/
theorem Cursor.reads_iff_isPrefix {c : Cursor} {text : Chars} :
    c.Reads text ↔ text <+: (c.encoding.decodeFrom c.doc c.stop c.offset).1.map Prod.fst := by
  induction text generalizing c with
  | nil => exact iff_of_true Cursor.reads_nil List.nil_prefix
  | cons ch text ih =>
    rw [Cursor.reads_cons]
    cases hDecode : c.encoding.decodeAt c.doc c.stop c.offset with
    | error fault =>
      have hNone : ¬c.Reads [ch] := fun hReads =>
        nomatch hDecode.symm.trans (Cursor.charAt_eq_ok_iff.mp (Cursor.reads_singleton_iff.mp hReads))
      rw [Encoding.characters_of_error hDecode]
      exact iff_of_false (fun hBoth => hNone hBoth.1) (by simp)
    | ok read =>
      obtain ⟨next, w⟩ := read
      obtain ⟨hNext, rfl⟩ := Cursor.reads_of_charAt (Cursor.charAt_eq_ok_iff.mpr hDecode)
      have hRest := @ih (c.advance [next])
      rw [Cursor.encoding_advance, Cursor.doc_advance, Cursor.stop_advance, Cursor.offset_advance, Encoding.size_cons,
        Encoding.size_nil, Nat.add_zero] at hRest
      rw [Encoding.decodeFrom_of_ok hDecode, List.map_cons, List.cons_prefix_cons, ← hRest]
      constructor
      · rintro ⟨hFirst, hMore⟩
        obtain rfl : next = ch := hFirst.head_eq hNext
        exact ⟨rfl, hMore⟩
      · rintro ⟨rfl, hMore⟩
        exact ⟨hNext, hMore⟩

section
variable {options : Options} {namespaces : Bool} {doc : ByteArray} {offset length : Nat}

theorem isPrefix_charactersOf_iff {e : Encoding} {text : Chars} : text <+: (e.charactersOf doc offset length).1 ↔
    (Cursor.atStart doc (contentStart doc offset length) (offset + length) e).Reads text :=
  (@Cursor.reads_iff_isPrefix (.atStart doc (contentStart doc offset length) (offset + length) e) text).symm

def openingCharacters (doc : ByteArray) (offset length : Nat) : Chars :=
  ((Encoding.initial (headBytes doc offset (offset + length))).charactersOf doc offset length).1

/-- The encoding of a document: what its first bytes fix, else what it declares, else UTF-8. -/
def Encoding.IsOf (bytes : List Nat) (text : Chars) (e : Encoding) : Prop :=
  match fixedBy? bytes with
  | some fixed => e = fixed
  | none => (∀ label, Declares text label → ofLabel? label = some e) ∧ ((∀ label, ¬Declares text label) → e = .utf8)

theorem isOf_of_reconcile {bytes : List Nat} {text : Chars} {detected : Detected} {e : Encoding}
    (hHead : Detected.ofHead bytes = .ok detected)
    (hReconcile : ∀ label, Declares text label → reconcile detected.mark detected.encoding label = .ok e)
    (hKept : (∀ label, ¬Declares text label) → e = detected.encoding) : e.IsOf bytes text := by
  have hInitial : (∀ label, ¬Declares text label) → e = (Encoding.fixedBy? bytes).getD .utf8 := fun hNone =>
    (hKept hNone).trans (Detected.encoding_of_ofHead hHead)
  unfold Encoding.IsOf
  cases hFixed : Encoding.fixedBy? bytes with
  | some fixed =>
    rw [hFixed] at hInitial
    by_cases hNone : ∀ label, ¬Declares text label
    · exact hInitial hNone
    · obtain ⟨label, hLabel⟩ := not_forall_not.mp hNone
      obtain hSome | ⟨hOther, -⟩ := fixedBy?_of_reconcile hHead (hReconcile label hLabel)
      · exact Option.some.inj (hSome.symm.trans hFixed)
      · cases hOther.symm.trans hFixed
  | none =>
    rw [hFixed] at hInitial
    refine ⟨fun label hLabel => ?_, hInitial⟩
    obtain hSome | ⟨-, hDeclared⟩ := fixedBy?_of_reconcile hHead (hReconcile label hLabel)
    · cases hSome.symm.trans hFixed
    · exact hDeclared

theorem declares_openingCharacters_iff {detected : Detected} {label : String}
    (hHead : Detected.ofHead (headBytes doc offset (offset + length)) = .ok detected) :
    Declares (openingCharacters doc offset length) label ↔ ∃ l : Labeling, l.WellFormed ∧ l.label = label ∧
      (Lexer.atRange options namespaces detected doc offset length).cursor.Reads l.text := by
  have hCursor : (Lexer.atRange options namespaces detected doc offset length).cursor =
      .atStart doc (contentStart doc offset length) (offset + length)
        (Encoding.initial (headBytes doc offset (offset + length))) := by
    rw [Lexer.cursor_atRange, contentStart, ByteOrderMark.ofHead_eq hHead, Detected.encoding_of_ofHead hHead]
  rw [hCursor]
  simp only [Declares, openingCharacters, isPrefix_charactersOf_iff]

/-- A range that is parsed is in the encoding that its first bytes and its declaration tell; a range whose declaration
names an encoding that does not go with its first bytes, or none that there is, is refused for that. -/
theorem parseRange_encoding (hRange : offset + length ≤ doc.size) :
    (∀ x, parseRange options namespaces doc offset length = .ok x →
      x.encoding.IsOf (headBytes doc offset (offset + length)) (openingCharacters doc offset length)) ∧
    ∀ label, Declares (openingCharacters doc offset length) label →
      EncodingLabel.Refused (headBytes doc offset (offset + length)) label →
        ∃ cause position, parseRange options namespaces doc offset length = .error ⟨.encoding cause, position⟩ := by
  constructor
  -- What is parsed with namespaces is parsed without them, in the same encoding.
  · intro x hOk
    obtain ⟨detected, s, hDetect, hRun, hIndex⟩ := exists_run_of_parseRange (parseRange_of_namespaces hOk)
    obtain ⟨-, hHead, -⟩ := detect_eq_ok_iff.mp hDetect
    obtain ⟨d, t, place, -, -, hStart, -, -, -, hReading⟩ := Lex.exists_body_of_completes rfl rfl rfl ⟨s, hRun, rfl⟩
    have hEncoding : x.encoding = t.cursor.encoding :=
      (congrArg Index.encoding hIndex).trans (congrArg Reading.encoding hReading)
    have hDeclares := fun label => @declares_openingCharacters_iff options false doc offset length _ label hHead
    have hReconcile : ∀ label, Declares (openingCharacters doc offset length) label →
        reconcile detected.mark detected.encoding label = .ok x.encoding := by
      intro label hLabel
      obtain ⟨l, hWell, rfl, hReads⟩ := (hDeclares label).mp hLabel
      have hTaken := Lex.reconcile_of_start rfl hWell hReads hStart
      rw [hEncoding]
      exact hTaken
    have hKept : (∀ label, ¬Declares (openingCharacters doc offset length) label) →
        x.encoding = detected.encoding := by
      intro hNone
      rw [hEncoding]
      obtain hSame | ⟨l, hWell, hReads⟩ := Lex.labeling_of_start rfl hStart
      · exact hSame
      · exact absurd ((hDeclares l.label).mpr ⟨l, hWell, rfl, hReads⟩) (hNone _)
    exact isOf_of_reconcile hHead hReconcile hKept
  · intro label hDeclares hRefused
    cases hDetect : detect doc offset (offset + length) namespaces with
    | error cause => exact ⟨cause, none, parseRange_of_undetected hRange hDetect⟩
    | ok detected =>
      obtain ⟨-, hHead, -⟩ := detect_eq_ok_iff.mp hDetect
      obtain ⟨l, hWell, rfl, hReads⟩ :=
        (@declares_openingCharacters_iff options namespaces _ _ _ _ _ hHead).mp hDeclares
      obtain ⟨cause, hError⟩ := exists_error_of_refused hHead hRefused
      have hStart := Lex.start_of_labeling_error rfl hWell hReads hError
      have hRun : Lex.run .start (.atRange options namespaces detected doc offset length) =
          .error (.encoding cause) (Lex.pastLabeling (.atRange options namespaces detected doc offset length) l) :=
        (Lex.run_of_step rfl).trans (Lex.bind_of_error hStart)
      let failed := Lex.pastLabeling (.atRange options namespaces detected doc offset length) l
      refine ⟨cause, some (failed.cursor.position failed.cursor.last), ?_⟩
      rw [parseRange_of_detected hRange hDetect, hRun]
      rfl

end

/-- `<?xml version='1.0' encoding='ASCII'?><r/>` -/
def declaredPage : ByteArray :=
  ⟨#[
    0x3C, 0x3F, 0x78, 0x6D, 0x6C, 0x20, 0x76, 0x65, 0x72, 0x73, 0x69, 0x6F, 0x6E, 0x3D, 0x27, 0x31, 0x2E, 0x30,
    0x27, 0x20, 0x65, 0x6E, 0x63, 0x6F, 0x64, 0x69, 0x6E, 0x67, 0x3D, 0x27, 0x41, 0x53, 0x43, 0x49, 0x49, 0x27,
    0x3F, 0x3E, 0x3C, 0x72, 0x2F, 0x3E]⟩

/-- The same after a mark of UTF-8 -/
def markedPage : ByteArray :=
  ⟨#[0xEF, 0xBB, 0xBF]⟩ ++ declaredPage

def Grammar.pageLabeling : Labeling where
  letters := CodePoint.ofText "xml"
  version := ⟨[0x20], CodePoint.ofText "version", ⟨[], [], CodePoint.singleQuote, CodePoint.ofText "1.0"⟩⟩
  encoding := ⟨[0x20], CodePoint.ofText "encoding", ⟨[], [], CodePoint.singleQuote, CodePoint.ofText "ASCII"⟩⟩

theorem Grammar.pageLabeling_wellFormed : pageLabeling.WellFormed where
  letters := ⟨by decide, by decide, by decide, trivial⟩
  version := ⟨⟨by decide, by unfold IsSpace; decide, ⟨nofun, nofun, .inr rfl⟩⟩, rfl, .inl rfl⟩
  encoding := ⟨⟨by decide, by unfold IsSpace; decide, ⟨nofun, nofun, .inr rfl⟩⟩, rfl, ⟨by decide, by decide⟩⟩

theorem declares_declaredPage : Declares (openingCharacters declaredPage 0 42) "ASCII" := by
  have hText : openingCharacters declaredPage 0 42 = pageLabeling.text ++ CodePoint.ofText "?><r/>" := by with_unfolding_all rfl
  exact ⟨pageLabeling, pageLabeling_wellFormed, by decide, hText ▸ List.prefix_append _ _⟩

theorem declares_markedPage : Declares (openingCharacters markedPage 0 45) "ASCII" := by
  have hText : openingCharacters markedPage 0 45 = pageLabeling.text ++ CodePoint.ofText "?><r/>" := by with_unfolding_all rfl
  exact ⟨pageLabeling, pageLabeling_wellFormed, by decide, hText ▸ List.prefix_append _ _⟩

def declaredPageIndex : Index where
  buffer := declaredPage
  docOffset := 0
  docLength := 42
  encoding := .ascii
  namespaces := false
  maxDepth := 0
  root := some 5
  tokens := #[⟨.document, -1, 0, 0⟩, ⟨.declarationName, -1, 6, 7⟩, ⟨.declarationValue, -1, 15, 3⟩,
    ⟨.declarationName, -1, 20, 8⟩, ⟨.declarationValue, -1, 30, 5⟩, ⟨.startTag, 0, 39, 1⟩]
  cache := ⟨#[#[], #[]], #[]⟩

theorem parseRange_declaredPage : parseRange {} false declaredPage 0 42 = .ok declaredPageIndex :=
  @parseRange_of_runWithin _ _ _ _ _ 3 ⟨.utf8, .none⟩ _ (by decide) rfl (by decide +kernel)

/-- The declaration is heeded without a mark, and refused after one. -/
theorem parseRange_encoding_page :
    parseRange {} false declaredPage 0 42 = .ok declaredPageIndex ∧
    Encoding.ofLabel? "ASCII" = some declaredPageIndex.encoding ∧
      ∃ cause position, parseRange {} false markedPage 0 45 = .error ⟨.encoding cause, position⟩ := by
  have hFree : Encoding.fixedBy? (headBytes declaredPage 0 (0 + 42)) = none := rfl
  have hFixed : Encoding.fixedBy? (headBytes markedPage 0 (0 + 45)) = some .utf8 := rfl
  obtain ⟨hAccepted, -⟩ := @parseRange_encoding {} false declaredPage 0 42 (by decide)
  obtain ⟨-, hRefused⟩ := @parseRange_encoding {} false markedPage 0 45 (by decide)
  have hEncoding := hAccepted _ parseRange_declaredPage
  rw [Encoding.IsOf, hFree] at hEncoding
  have hDeclared := hEncoding.1 _ declares_declaredPage
  exact ⟨parseRange_declaredPage, hDeclared, hRefused _ declares_markedPage (.other hFixed hDeclared (by decide))⟩

end XmlIndex
