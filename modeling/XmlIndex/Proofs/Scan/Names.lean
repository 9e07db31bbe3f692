import XmlIndex.Proofs.Grammar.Tokens
import XmlIndex.Proofs.Scan.Languages

/-! # Reading spaces and names

An action that goes on from a consumed character is described from before that character, so that
what it reads is one text.
-/
namespace XmlIndex
set_option autoImplicit false
open Grammar

theorem CodePoint.isSpace_iff {ch : Nat} :
    CodePoint.isSpace ch = true ↔ ch = 0x20 ∨ ch = 0x0A ∨ ch = 0x09 ∨ ch = 0x0D := by
  simp only [CodePoint.isSpace, Bool.or_eq_true, beq_iff_eq, or_assoc]

theorem CodePoint.isName_of_isSpace {ch : CodePoint} (hSpace : CodePoint.isSpace ch = true) :
    CodePoint.isName ch = false := by
  rcases CodePoint.isSpace_iff.mp hSpace with rfl | rfl | rfl | rfl <;> decide

namespace Scan
variable {c c' : Cursor} {ch d : CodePoint} {text : Chars}

theorem nextAfter_eq_ok_iff {skipped : CodePoint → Bool} : nextAfter skipped c = .ok ch c' ↔
    ∃ run, c.Reads (run ++ [ch]) ∧ (∀ d ∈ run, skipped d = true) ∧ skipped ch = false ∧
      c' = c.advance (run ++ [ch]) := by
  rw [nextAfter, drive_eq_ok_iff]
  simp only [accepts_nextAfter_iff]
  constructor
  · rintro ⟨_, hReads, ⟨run, rfl, hRun, hLast⟩, rfl⟩
    exact ⟨run, hReads, hRun, hLast, rfl⟩
  · rintro ⟨run, hReads, hRun, hLast, rfl⟩
    exact ⟨_, hReads, ⟨run, rfl, hRun, hLast⟩, rfl⟩

theorem nextAfterSpace_eq_ok_iff : nextAfterSpace c = .ok ch c' ↔
    ∃ space, c.Reads (space ++ [ch]) ∧ IsSpace space ∧ CodePoint.isSpace ch = false ∧
      c' = c.advance (space ++ [ch]) :=
  nextAfter_eq_ok_iff

/-- Spaces from a consumed character on. -/
theorem skipSpace_eq_ok_iff (hReads : c.Reads [ch]) :
    skipSpace ch (c.advance [ch]) = .ok d c' ↔
      ∃ space, c.Reads (space ++ [d]) ∧ IsSpace space ∧ CodePoint.isSpace d = false ∧
        c' = c.advance (space ++ [d]) := by
  unfold skipSpace
  split
  · rename_i hSpace
    rw [nextAfterSpace_eq_ok_iff]
    constructor
    · rintro ⟨space, hText, hSpaces, hLast, rfl⟩
      exact ⟨ch :: space, Cursor.reads_cons.mpr ⟨hReads, hText⟩,
        List.forall_mem_cons.mpr ⟨hSpace, hSpaces⟩, hLast, rfl⟩
    · rintro ⟨space, hText, hSpaces, hLast, rfl⟩
      cases space with
      | nil =>
        obtain rfl := hReads.head_eq hText
        rw [hSpace] at hLast
        cases hLast
      | cons first space =>
        obtain rfl := hReads.head_eq hText
        exact ⟨space, (Cursor.reads_cons.mp hText).2, (List.forall_mem_cons.mp hSpaces).2, hLast, rfl⟩
  · rename_i hSpace
    rw [pure_eq_ok_iff]
    constructor
    · rintro ⟨rfl, rfl⟩
      exact ⟨[], hReads, fun _ h => (List.not_mem_nil h).elim, by simpa using hSpace, rfl⟩
    · rintro ⟨space, hText, hSpaces, hLast, rfl⟩
      cases space with
      | nil =>
        obtain rfl := hReads.head_eq hText
        exact ⟨rfl, rfl⟩
      | cons first space =>
        obtain rfl := hReads.head_eq hText
        exact absurd (hSpaces _ List.mem_cons_self) hSpace

end Scan

namespace Grammar
variable {lead more : Chars}

theorem prefixOf_append_of_mem (hColon : CodePoint.colon ∈ more) :
    prefixOf (lead ++ more) = lead ++ prefixOf more := by
  induction lead with
  | nil => rfl
  | cons ch lead ih =>
    rw [List.cons_append, prefixOf, if_pos (List.mem_append_right _ hColon), ih, List.cons_append]

theorem prefixOf_append_of_notMem (hColon : CodePoint.colon ∉ more) :
    prefixOf (lead ++ more) = prefixOf lead := by
  induction lead with
  | nil =>
    cases more with
    | nil => rfl
    | cons ch rest => exact if_neg fun h => hColon (List.mem_cons_of_mem _ h)
  | cons ch lead ih =>
    rw [List.cons_append, prefixOf, prefixOf, ih]
    simp [hColon]

end Grammar

namespace Scan
variable {c c' : Cursor} {ch : CodePoint} {text : Chars} {e : Encoding}

def colonPlace (e : Encoding) (colon place : Nat) (text : Chars) : Nat :=
  if CodePoint.colon ∈ text then place + e.size (prefixOf text) else colon

theorem colonPlace_cons {colon place : Nat} : colonPlace e colon place (ch :: text) =
    colonPlace e (if ch = CodePoint.colon then place else colon) (place + e.width ch) text := by
  unfold colonPlace
  by_cases hMem : CodePoint.colon ∈ text
  · rw [if_pos (List.mem_cons_of_mem _ hMem), if_pos hMem, prefixOf, if_pos hMem, Encoding.size_cons,
      Nat.add_assoc]
  · by_cases hColon : ch = CodePoint.colon
    · rw [if_pos (hColon ▸ List.mem_cons_self), if_neg hMem, if_pos hColon, prefixOf, if_neg hMem]
      rfl
    · rw [if_neg hMem, if_neg hColon, if_neg]
      rw [List.mem_cons, not_or]
      exact ⟨Ne.symm hColon, hMem⟩

theorem accepts_nameStep_iff {colon colon' place : Nat} :
    Automaton.Accepts nameStep e colon place text (ch, colon') ↔
      ∃ name, text = name ++ [ch] ∧ (∀ d ∈ name, CodePoint.isName d = true) ∧
        CodePoint.isName ch = false ∧ colon' = colonPlace e colon place name := by
  induction text generalizing colon place with
  | nil => simp [Automaton.Accepts]
  | cons d rest ih =>
    rw [exists_cons_eq_append_iff]
    simp only [List.forall_mem_cons, colonPlace_cons]
    by_cases hName : CodePoint.isName d = true
    · rw [Automaton.accepts_of_more (if_pos hName)]
      refine ih.trans ?_
      rw [or_iff_right]
      · simp [hName]
      rintro ⟨hText, -, hLast, -⟩
      rw [← (List.cons.inj hText).1, hName] at hLast
      cases hLast
    · rw [Automaton.accepts_of_done (b := (d, colon)) (if_neg hName), or_iff_left (by simp [hName])]
      simp only [Prod.mk.injEq, List.cons.injEq]
      constructor
      · rintro ⟨rfl, rfl, rfl⟩
        exact ⟨⟨rfl, rfl⟩, fun _ h => (List.not_mem_nil h).elim, by simpa using hName, rfl⟩
      · rintro ⟨⟨rfl, rfl⟩, -, -, rfl⟩
        exact ⟨rfl, rfl, rfl⟩

def nameAt (e : Encoding) (place : Nat) (text : Chars) : Name :=
  ⟨place, e.size text, e.size (prefixOf text)⟩

theorem prefixLength_eq {lead : Chars} {place : Nat} :
    colonPlace e (place + e.size (prefixOf lead)) (place + e.size lead) text - place =
      e.size (prefixOf (lead ++ text)) := by
  unfold colonPlace
  split
  · rw [prefixOf_append_of_mem ‹_›, Encoding.size_append]
    omega
  · rw [prefixOf_append_of_notMem ‹_›]
    omega

theorem nameEnd_eq_ok_iff {place : Nat} {found : CodePoint × Nat} {name : Name} :
    nameEnd place found c = .ok (ch, name) c' ↔
      ch = found.1 ∧ name = ⟨place, c.last - place, found.2 - place⟩ ∧ c' = c := by
  have hEnd : nameEnd place found c = .ok (found.1, ⟨place, c.last - place, found.2 - place⟩) c := rfl
  rw [hEnd, EStateM.Result.ok.injEq, Prod.mk.injEq, and_assoc, eq_comm, @eq_comm _ name,
    @eq_comm _ c']

/-- The rest of a name of which `lead` has been read, the last colon so far among it. -/
theorem nameDrive_eq_ok_iff {lead : Chars} {name : Name} (hLead : c.Reads lead) :
    (drive nameStep (c.offset + c.encoding.size (prefixOf lead)) >>= nameEnd c.offset)
        (c.advance lead) = .ok (ch, name) c' ↔
      ∃ more, c.Reads (lead ++ more ++ [ch]) ∧ (∀ d ∈ more, CodePoint.isName d = true) ∧
        CodePoint.isName ch = false ∧ name = nameAt c.encoding c.offset (lead ++ more) ∧
          c' = c.advance (lead ++ more ++ [ch]) := by
  have hName : ∀ more ch, (⟨c.offset, ((c.advance lead).advance (more ++ [ch])).last - c.offset,
      colonPlace (c.advance lead).encoding (c.offset + c.encoding.size (prefixOf lead))
        (c.advance lead).offset more - c.offset⟩ : Name) =
      nameAt c.encoding c.offset (lead ++ more) := by
    intro more ch
    simp only [Cursor.encoding_advance, Cursor.offset_advance, Cursor.last_advance_append,
      prefixLength_eq, nameAt, Encoding.size_append]
    congr 1
    omega
  simp only [bind_eq_ok_iff, nameEnd_eq_ok_iff, drive_eq_ok_iff,
    List.append_assoc, @Cursor.reads_append _ lead, @Cursor.advance_append _ lead]
  constructor
  · rintro ⟨⟨ch', colon⟩, _, ⟨text, hReads, hAccepts, rfl⟩, rfl, rfl, rfl⟩
    obtain ⟨more, rfl, hMore, hLast, rfl⟩ := accepts_nameStep_iff.mp hAccepts
    exact ⟨more, ⟨hLead, hReads⟩, hMore, hLast, hName more ch, rfl⟩
  · rintro ⟨more, ⟨-, hReads⟩, hMore, hLast, rfl, rfl⟩
    exact ⟨(ch, _), _, ⟨more ++ [ch], hReads,
      accepts_nameStep_iff.mpr ⟨more, rfl, hMore, hLast, rfl⟩, rfl⟩, rfl, (hName more ch).symm, rfl⟩

theorem prefixOf_singleton : prefixOf [ch] = [] :=
  if_neg List.not_mem_nil

/-- A name whose first character has been consumed. -/
theorem nameRest_eq_ok_iff {first : CodePoint} {name : Name} (hReads : c.Reads [first])
    (hFirst : CodePoint.isNameStart first = true) :
    nameRest c.offset (c.advance [first]) = .ok (ch, name) c' ↔
      ∃ text, c.Reads (text ++ [ch]) ∧ IsName text ∧ CodePoint.isName ch = false ∧
        name = nameAt c.encoding c.offset text ∧ c' = c.advance (text ++ [ch]) := by
  have hDrive := @nameDrive_eq_ok_iff c c' ch _ name hReads
  rw [prefixOf_singleton, Encoding.size_nil, Nat.add_zero] at hDrive
  refine hDrive.trans ?_
  constructor
  · rintro ⟨more, hText, hMore, hLast, rfl, rfl⟩
    exact ⟨first :: more, hText, ⟨hFirst, hMore⟩, hLast, rfl, rfl⟩
  · rintro ⟨text, hText, hName, hLast, rfl, rfl⟩
    cases text with
    | nil => exact hName.elim
    | cons d more =>
      obtain rfl := hReads.head_eq hText
      exact ⟨more, hText, hName.2, hLast, rfl, rfl⟩

def roleOf (text : Chars) (ch : CodePoint) : AttributeRole :=
  if text = CodePoint.ofText "xmlns" then declaredRole ch
  else if CodePoint.ofText "xmlns:" <+: text then .namespacePrefix
  else .plain

theorem nameFrom_of_isName {place : Nat} {d : CodePoint} (hName : CodePoint.isName d = true) :
    nameFrom place d c =
      (drive nameStep (if d = CodePoint.colon then c.last else place) >>= nameEnd place) c := by
  have hStep : nameStep place c.last d = .more (if d = CodePoint.colon then c.last else place) :=
    if_pos hName
  change EStateM.bind _ _ _ = EStateM.bind _ _ _
  unfold EStateM.bind
  rw [feed_of_more hStep]

theorem nameFrom_of_not_isName {place : Nat} {d : CodePoint} (hName : CodePoint.isName d = false) :
    nameFrom place d c = .ok (d, ⟨place, c.last - place, 0⟩) c := by
  have hStep : nameStep place c.last d = .done (d, place) := if_neg (by simp [hName])
  change EStateM.bind _ _ _ = _
  unfold EStateM.bind
  rw [feed_of_done hStep]
  change EStateM.Result.ok (d, (⟨place, c.last - place, place - place⟩ : Name)) c = _
  rw [Nat.sub_self]

end Scan

namespace Grammar

/-- A text that holds a character foreign to `expected` begins with it or differs from it. -/
theorem prefix_or_differs {expected text : Chars} (hForeign : ∃ d ∈ text, d ∉ expected) :
    expected <+: text ∨ ∃ found missing others d rest, expected = found ++ missing :: others ∧
      text = found ++ d :: rest ∧ d ≠ missing := by
  induction expected generalizing text with
  | nil => exact .inl List.nil_prefix
  | cons first expected ih =>
    obtain ⟨d, hd, hForeign⟩ := hForeign
    cases text with
    | nil => cases hd
    | cons ch text =>
      by_cases hHead : ch = first
      · subst hHead
        rw [List.mem_cons, not_or] at hForeign
        have hRest := (List.mem_cons.mp hd).resolve_left hForeign.1
        rcases ih ⟨d, hRest, hForeign.2⟩ with hPrefix | ⟨found, missing, others, d, rest, rfl, rfl, hDiffers⟩
        · exact .inl (List.cons_prefix_cons.mpr ⟨rfl, hPrefix⟩)
        · exact .inr ⟨ch :: found, missing, others, d, rest, rfl, rfl, hDiffers⟩
      · exact .inr ⟨[], first, expected, ch, text, rfl, rfl, hHead⟩

end Grammar

namespace Scan
variable {c c' : Cursor} {ch first : CodePoint} {role : AttributeRole} {name : Name}

theorem prefixOf_of_notMem {text : Chars} (hColon : CodePoint.colon ∉ text) : prefixOf text = [] :=
  @prefixOf_append_of_notMem [] _ hColon

/-- A name that goes on with its consumed character, before which there was no colon. -/
theorem nameFrom_next_eq_ok_iff {lead : Chars} {d : CodePoint} (hReads : c.Reads (lead ++ [d]))
    (hColon : CodePoint.colon ∉ lead) (hName : CodePoint.isName d = true) :
    nameFrom c.offset d (c.advance (lead ++ [d])) = .ok (ch, name) c' ↔
      ∃ more, c.Reads (lead ++ d :: more ++ [ch]) ∧ (∀ d ∈ more, CodePoint.isName d = true) ∧
        CodePoint.isName ch = false ∧ name = nameAt c.encoding c.offset (lead ++ d :: more) ∧
          c' = c.advance (lead ++ d :: more ++ [ch]) := by
  have hPlace : (if d = CodePoint.colon then (c.advance (lead ++ [d])).last else c.offset) =
      c.offset + c.encoding.size (prefixOf (lead ++ [d])) := by
    split
    · rw [prefixOf_append_of_mem (by simp [‹d = _›]), prefixOf_singleton, List.append_nil,
        Cursor.last_advance_append]
    · rw [prefixOf_append_of_notMem (by simpa using Ne.symm ‹_›), prefixOf_of_notMem hColon,
        Encoding.size_nil, Nat.add_zero]
  rw [nameFrom_of_isName hName, hPlace, nameDrive_eq_ok_iff hReads]
  simp only [List.append_assoc, List.cons_append, List.nil_append]

/-- A name that ended right before its consumed character. -/
theorem nameFrom_last_eq_ok_iff {lead : Chars} {d : CodePoint}
    (hColon : CodePoint.colon ∉ lead) (hName : CodePoint.isName d = false) :
    nameFrom c.offset d (c.advance (lead ++ [d])) = .ok (ch, name) c' ↔
      ch = d ∧ name = nameAt c.encoding c.offset lead ∧ c' = c.advance (lead ++ [d]) := by
  have hSame : (⟨c.offset, (c.advance (lead ++ [d])).last - c.offset, 0⟩ : Name) =
      nameAt c.encoding c.offset lead := by
    rw [nameAt, prefixOf_of_notMem hColon, Cursor.last_advance_append, Nat.add_sub_cancel_left]
    rfl
  rw [nameFrom_of_not_isName hName, hSame, EStateM.Result.ok.injEq, Prod.mk.injEq, and_assoc, eq_comm,
    @eq_comm _ name, @eq_comm _ c']

/-- A name of which more has been consumed than the character it goes on with. -/
theorem nameFrom_back_eq_ok_iff {lead : Chars} (hReads : c.Reads lead)
    (hColon : CodePoint.colon ∉ lead) (hFirst : first ≠ CodePoint.colon)
    (hName : CodePoint.isName first = true) :
    nameFrom c.offset first (c.advance lead) = .ok (ch, name) c' ↔
      ∃ more, c.Reads (lead ++ more ++ [ch]) ∧ (∀ d ∈ more, CodePoint.isName d = true) ∧
        CodePoint.isName ch = false ∧ name = nameAt c.encoding c.offset (lead ++ more) ∧
          c' = c.advance (lead ++ more ++ [ch]) := by
  have hDrive := @nameDrive_eq_ok_iff c c' ch _ name hReads
  rw [prefixOf_of_notMem hColon, Encoding.size_nil, Nat.add_zero] at hDrive
  rw [nameFrom_of_isName hName, if_neg hFirst]
  exact hDrive

abbrev declaringLetters : Chars :=
  CodePoint.ofText "mlns"

theorem isName_of_mem_declaringLetters : ∀ d ∈ declaringLetters, CodePoint.isName d = true := by
  decide

/-- Names that do not begin with the letters `xmlns` are read as any other name. -/
theorem attributeRole_other (hFirst : first ≠ 0x78) :
    attributeRole first (c.advance [first]) = .ok (first, .plain) (c.advance [first]) := by
  rw [attributeRole, if_neg hFirst]
  rfl

theorem attributeRole_eq_ok_iff {d : CodePoint} :
    attributeRole 0x78 c = .ok (d, role) c' ↔
      (c.Reads (declaringLetters ++ [d]) ∧ role = declaredRole d ∧
          c' = c.advance (declaringLetters ++ [d])) ∨
        (d = 0x78 ∧ role = .plain ∧ ∃ found missing others e, declaringLetters = found ++ missing :: others ∧
          e ≠ missing ∧ c.Reads (found ++ [e]) ∧ c' = c.advance found) := by
  rw [attributeRole, if_pos rfl, bind_eq_ok_iff]
  constructor
  · rintro ⟨b, c₁, hSkip, hRest⟩
    cases b with
    | true =>
      obtain ⟨hLetters, rfl⟩ := skipAll_eq_ok_true_iff.mp hSkip
      rw [if_pos rfl, bind_eq_ok_iff] at hRest
      obtain ⟨d', c₂, hNext, hRole⟩ := hRest
      obtain ⟨hChar, rfl⟩ := next_eq_ok_iff.mp hNext
      obtain ⟨hPair, rfl⟩ := pure_eq_ok_iff.mp hRole
      obtain ⟨rfl, rfl⟩ := Prod.mk.inj hPair
      exact .inl ⟨Cursor.reads_append.mpr ⟨hLetters, hChar⟩, rfl, Cursor.advance_append.symm⟩
    | false =>
      obtain ⟨found, missing, others, e, hLetters, hDiffers, hReads, rfl⟩ :=
        skipAll_eq_ok_false_iff.mp hSkip
      obtain ⟨hPair, rfl⟩ := pure_eq_ok_iff.mp hRest
      obtain ⟨rfl, rfl⟩ := Prod.mk.inj hPair
      exact .inr ⟨rfl, rfl, found, missing, others, e, hLetters, hDiffers, hReads, rfl⟩
  · rintro (⟨hReads, rfl, rfl⟩ | ⟨rfl, rfl, found, missing, others, e, hLetters, hDiffers, hReads, rfl⟩)
    · rw [Cursor.reads_append] at hReads
      refine ⟨true, _, skipAll_eq_ok_true_iff.mpr ⟨hReads.1, rfl⟩, ?_⟩
      rw [if_pos rfl, bind_eq_ok_iff]
      exact ⟨d, _, next_eq_ok_iff.mpr ⟨hReads.2, rfl⟩,
        pure_eq_ok_iff.mpr ⟨rfl, Cursor.advance_append⟩⟩
    · exact ⟨false, _, skipAll_eq_ok_false_iff.mpr
        ⟨found, missing, others, e, hLetters, hDiffers, hReads, rfl⟩, pure_eq_ok_iff.mpr ⟨rfl, rfl⟩⟩

end Scan

namespace Cursor
variable {c : Cursor} {text other rest rest' : Chars}

/-- Two texts read at one place do not differ first in one character. -/
theorem Reads.append_inj {ch d : CodePoint} (hText : c.Reads (text ++ ch :: rest))
    (hOther : c.Reads (text ++ d :: rest')) : ch = d := by
  rw [reads_append] at hText hOther
  exact (reads_cons.mp hOther.2).1.head_eq hText.2

end Cursor

namespace Scan
variable {c c' : Cursor} {ch first : CodePoint} {role : AttributeRole} {name : Name}

theorem roleOf_eq_plain {text : Chars} (hOther : ¬CodePoint.ofText "xmlns" <+: text ++ [ch]) :
    roleOf text ch = .plain := by
  have hName : text ≠ CodePoint.ofText "xmlns" := fun h => hOther (h ▸ List.prefix_append _ _)
  have hPrefix : ¬CodePoint.ofText "xmlns:" <+: text := fun h =>
    hOther (((by decide : CodePoint.ofText "xmlns" <+: CodePoint.ofText "xmlns:").trans h).trans
      (List.prefix_append _ _))
  rw [roleOf, if_neg hName, if_neg hPrefix]

theorem not_prefix_of_ne {text : Chars} (hFirst : first ≠ 0x78) :
    ¬CodePoint.ofText "xmlns" <+: first :: text := by
  rw [show CodePoint.ofText "xmlns" = 0x78 :: declaringLetters from rfl, List.cons_prefix_cons]
  exact fun h => hFirst h.1.symm

theorem roleOf_declaring {more : Chars} {d : CodePoint} (hName : CodePoint.isName d = true) :
    roleOf (0x78 :: declaringLetters ++ d :: more) ch = declaredRole d := by
  have hEquals : d ≠ CodePoint.equals := by
    rintro rfl
    cases hName
  have hSpace : ¬CodePoint.isSpace d = true := by
    intro hSpace
    rw [CodePoint.isName_of_isSpace hSpace] at hName
    cases hName
  have hLonger : 0x78 :: declaringLetters ++ d :: more ≠ CodePoint.ofText "xmlns" :=
    fun h => List.cons_ne_nil d more (List.append_right_eq_self.mp h)
  rw [roleOf, if_neg hLonger]
  by_cases hColon : d = CodePoint.colon
  · subst hColon
    rw [if_pos ⟨more, rfl⟩]
    rfl
  · rw [if_neg, declaredRole, if_neg (by simp [hEquals, hSpace]), if_neg hColon]
    rintro ⟨rest, hText⟩
    exact hColon (List.cons.inj (@List.append_cancel_left _ (0x78 :: declaringLetters) _ _ hText)).1.symm

theorem declaringLetters_notMem (hLast : CodePoint.isName ch = false) : ch ∉ declaringLetters := by
  intro h
  rw [isName_of_mem_declaringLetters ch h] at hLast
  cases hLast

/-- A name whose next character has been consumed, before which there was no colon. -/
theorem nameFrom_eq_ok_iff {lead : Chars} {d : CodePoint} (hReads : c.Reads (lead ++ [d]))
    (hColon : CodePoint.colon ∉ lead) :
    nameFrom c.offset d (c.advance (lead ++ [d])) = .ok (ch, name) c' ↔
      ∃ more, c.Reads (lead ++ more ++ [ch]) ∧ (∀ d ∈ more, CodePoint.isName d = true) ∧
        CodePoint.isName ch = false ∧ name = nameAt c.encoding c.offset (lead ++ more) ∧
          c' = c.advance (lead ++ more ++ [ch]) := by
  have hHead {d' : CodePoint} {rest : Chars} (hText : c.Reads (lead ++ d' :: rest)) : d = d' :=
    hReads.append_inj hText
  cases hName : CodePoint.isName d with
  | true =>
    rw [nameFrom_next_eq_ok_iff hReads hColon hName]
    constructor
    · rintro ⟨more, hText, hMore, hLast, rfl, rfl⟩
      exact ⟨d :: more, hText, List.forall_mem_cons.mpr ⟨hName, hMore⟩, hLast, rfl, rfl⟩
    · rintro ⟨more, hText, hMore, hLast, rfl, rfl⟩
      cases more with
      | nil =>
        rw [List.append_nil] at hText
        rw [hHead hText, hLast] at hName
        cases hName
      | cons d' more =>
        obtain rfl := hHead (by rwa [List.append_assoc] at hText)
        exact ⟨more, hText, (List.forall_mem_cons.mp hMore).2, hLast, rfl, rfl⟩
  | false =>
    rw [nameFrom_last_eq_ok_iff hColon hName]
    constructor
    · rintro ⟨rfl, rfl, rfl⟩
      rw [← List.append_nil lead] at hReads
      exact ⟨[], hReads, nofun, hName, by rw [List.append_nil], by rw [List.append_nil]⟩
    · rintro ⟨more, hText, hMore, hLast, rfl, rfl⟩
      cases more with
      | nil =>
        rw [List.append_nil] at hText ⊢
        obtain rfl := hHead hText
        exact ⟨rfl, rfl, rfl⟩
      | cons d' more =>
        rw [hHead (by rwa [List.append_assoc] at hText), (List.forall_mem_cons.mp hMore).1] at hName
        cases hName

/-- The character after the letters `xmlns` tells the role. -/
theorem roleOf_declared {more rest : Chars} {d : CodePoint} (hMore : ∀ d ∈ more, CodePoint.isName d = true)
    (hHead : more ++ [ch] = d :: rest) : roleOf (0x78 :: declaringLetters ++ more) ch = declaredRole d := by
  cases more with
  | nil =>
    obtain ⟨rfl, -⟩ := List.cons.inj hHead
    exact if_pos rfl
  | cons d' more =>
    obtain ⟨rfl, -⟩ := List.cons.inj hHead
    exact roleOf_declaring (List.forall_mem_cons.mp hMore).1

section
variable {found others rest : Chars} {missing e : CodePoint}

theorem not_prefix_of_differs (hFound : declaringLetters = found ++ missing :: others) (hDiffers : e ≠ missing) :
    ¬CodePoint.ofText "xmlns" <+: 0x78 :: (found ++ e :: rest) := by
  rw [show CodePoint.ofText "xmlns" = 0x78 :: declaringLetters from rfl, List.cons_prefix_cons, hFound,
    List.prefix_append_right_inj, List.cons_prefix_cons]
  exact fun h => hDiffers h.2.1.symm

theorem colon_notMem_letters : CodePoint.colon ∉ (0x78 : CodePoint) :: declaringLetters := by
  decide

theorem colon_notMem_of_found (hFound : declaringLetters = found ++ rest) :
    CodePoint.colon ∉ (0x78 : CodePoint) :: found := fun h =>
  colon_notMem_letters (hFound ▸ @List.mem_append_left _ _ (0x78 :: found) rest h)

end

/-- Whatever of a name has been consumed for its role, the name is read from its beginning. -/
theorem exists_text_of_attributeName {d : CodePoint} {c₁ : Cursor} (hReads : c.Reads [first])
    (hFirst : CodePoint.isNameStart first = true) (hRole : attributeRole first (c.advance [first]) = .ok (d, role) c₁)
    (hName : nameFrom c.offset d c₁ = .ok (ch, name) c') :
    ∃ text, c.Reads (text ++ [ch]) ∧ IsName text ∧ CodePoint.isName ch = false ∧
      name = nameAt c.encoding c.offset text ∧ c' = c.advance (text ++ [ch]) := by
  have hFirstName := CodePoint.isName_of_isNameStart hFirst
  by_cases hX : first = 0x78
  · subst hX
    rcases attributeRole_eq_ok_iff.mp hRole with ⟨hLetters, rfl, rfl⟩ |
      ⟨rfl, rfl, found, missing, others, e, hFound, -, hFoundReads, rfl⟩
    · obtain ⟨more, hText, hMore, hLast, rfl, rfl⟩ :=
        (nameFrom_eq_ok_iff (Cursor.reads_cons.mpr ⟨hReads, hLetters⟩) colon_notMem_letters).mp hName
      exact ⟨_, hText, ⟨hFirst, List.forall_mem_append.mpr ⟨isName_of_mem_declaringLetters, hMore⟩⟩, hLast, rfl, rfl⟩
    · have hLead : c.Reads (0x78 :: found) :=
        Cursor.reads_cons.mpr ⟨hReads, (Cursor.reads_append.mp hFoundReads).1⟩
      obtain ⟨more, hText, hMore, hLast, rfl, rfl⟩ :=
        (nameFrom_back_eq_ok_iff hLead (colon_notMem_of_found hFound) (by decide) hFirstName).mp hName
      have hNames : ∀ d ∈ found, CodePoint.isName d = true := fun d hd =>
        isName_of_mem_declaringLetters d (hFound ▸ List.mem_append_left _ hd)
      exact ⟨_, hText, ⟨hFirst, List.forall_mem_append.mpr ⟨hNames, hMore⟩⟩, hLast, rfl, rfl⟩
  · rw [attributeRole_other hX] at hRole
    cases hRole
    obtain ⟨more, hText, hMore, hLast, rfl, rfl⟩ :=
      (@nameFrom_next_eq_ok_iff _ _ _ _ [] _ hReads List.not_mem_nil hFirstName).mp hName
    exact ⟨first :: more, hText, ⟨hFirst, hMore⟩, hLast, rfl, rfl⟩

/-- A name that begins with the letter of a declaration is compared with its letters. -/
theorem attributeName_of_letter {text : Chars} (hText : c.Reads (0x78 :: (text ++ [ch])))
    (hNames : ∀ d ∈ text, CodePoint.isName d = true) (hLast : CodePoint.isName ch = false) :
    ∃ d c₁, attributeRole 0x78 (c.advance [0x78]) = .ok (d, roleOf (0x78 :: text) ch) c₁ ∧
      nameFrom c.offset d c₁ =
        .ok (ch, nameAt c.encoding c.offset (0x78 :: text)) (c.advance (0x78 :: (text ++ [ch]))) := by
  have hRest := (Cursor.reads_cons.mp hText).2
  have hForeign : ∃ d ∈ text ++ [ch], d ∉ declaringLetters :=
    ⟨ch, List.mem_append_right _ List.mem_cons_self, declaringLetters_notMem hLast⟩
  rcases prefix_or_differs hForeign with ⟨rest, hSplit⟩ | ⟨found, missing, others, e, rest, hFound, hSplit, hDiffers⟩
  · obtain ⟨more, rfl⟩ := exists_eq_append_of_concat_eq hSplit.symm (declaringLetters_notMem hLast)
    have hMore := (List.forall_mem_append.mp hNames).2
    obtain ⟨d, rest, hHead⟩ : ∃ d rest, more ++ [ch] = d :: rest := by
      cases more <;> exact ⟨_, _, rfl⟩
    have hAll : c.Reads (0x78 :: declaringLetters ++ [d] ++ rest) := by
      rw [List.append_assoc, hHead] at hText
      rwa [List.append_assoc]
    have hLead := (Cursor.reads_append.mp hAll).1
    refine ⟨d, c.advance (0x78 :: declaringLetters ++ [d]), ?_, ?_⟩
    · exact attributeRole_eq_ok_iff.mpr (.inl ⟨(Cursor.reads_cons.mp hLead).2, roleOf_declared hMore hHead, rfl⟩)
    · exact (nameFrom_eq_ok_iff hLead colon_notMem_letters).mpr ⟨more, hText, hMore, hLast, rfl, rfl⟩
  · -- What was compared is the beginning of the name, for the character after it ends no letters.
    obtain ⟨more, rfl⟩ := exists_eq_append_of_concat_eq hSplit fun h =>
      declaringLetters_notMem hLast (hFound ▸ List.mem_append_left _ h)
    have hAll : c.Reads (0x78 :: found ++ [e] ++ rest) := by
      rw [hSplit] at hText
      rwa [List.append_assoc]
    have hLead := (Cursor.reads_append.mp hAll).1
    have hPlain : roleOf (0x78 :: (found ++ more)) ch = .plain := by
      refine roleOf_eq_plain ?_
      rw [List.cons_append, hSplit]
      exact not_prefix_of_differs hFound hDiffers
    refine ⟨0x78, c.advance (0x78 :: found), ?_, ?_⟩
    · rw [hPlain]
      exact attributeRole_eq_ok_iff.mpr (.inr ⟨rfl, rfl, found, missing, others, e, hFound, hDiffers,
        (Cursor.reads_cons.mp hLead).2, rfl⟩)
    · exact (nameFrom_back_eq_ok_iff (Cursor.reads_append.mp hLead).1 (colon_notMem_of_found hFound) (by decide)
        (by decide)).mpr ⟨more, hText, (List.forall_mem_append.mp hNames).2, hLast, rfl, rfl⟩

theorem attributeName_of_reads {text : Chars} (hReads : c.Reads [first]) (hText : c.Reads (text ++ [ch]))
    (hName : IsName text) (hLast : CodePoint.isName ch = false) :
    ∃ d c₁, attributeRole first (c.advance [first]) = .ok (d, roleOf text ch) c₁ ∧
      nameFrom c.offset d c₁ = .ok (ch, nameAt c.encoding c.offset text) (c.advance (text ++ [ch])) := by
  obtain ⟨d, text, rfl⟩ := List.exists_cons_of_ne_nil hName.ne_nil
  obtain rfl := hReads.head_eq hText
  by_cases hX : d = 0x78
  · subst hX
    exact attributeName_of_letter hText hName.2 hLast
  · refine ⟨d, c.advance [d], ?_, ?_⟩
    · rw [attributeRole_other hX, roleOf_eq_plain (not_prefix_of_ne hX)]
    · exact (@nameFrom_next_eq_ok_iff _ _ _ _ [] _ hReads List.not_mem_nil
        (CodePoint.isName_of_isNameStart hName.1)).mpr ⟨text, hText, hName.2, hLast, rfl, rfl⟩

theorem attributeName_eq_ok_iff (hReads : c.Reads [first])
    (hFirst : CodePoint.isNameStart first = true) :
    (∃ d c₁, attributeRole first (c.advance [first]) = .ok (d, role) c₁ ∧
        nameFrom c.offset d c₁ = .ok (ch, name) c') ↔
      ∃ text, c.Reads (text ++ [ch]) ∧ IsName text ∧ CodePoint.isName ch = false ∧
        role = roleOf text ch ∧ name = nameAt c.encoding c.offset text ∧
          c' = c.advance (text ++ [ch]) := by
  constructor
  · rintro ⟨d, c₁, hRole, hNameFrom⟩
    obtain ⟨text, hText, hName, hLast, hSame, hEnd⟩ := exists_text_of_attributeName hReads hFirst hRole hNameFrom
    obtain ⟨d', c₁', hRole', -⟩ := attributeName_of_reads hReads hText hName hLast
    rw [hRole', EStateM.Result.ok.injEq, Prod.mk.injEq] at hRole
    exact ⟨text, hText, hName, hLast, hRole.1.2.symm, hSame, hEnd⟩
  · rintro ⟨text, hText, hName, hLast, rfl, rfl, rfl⟩
    exact attributeName_of_reads hReads hText hName hLast

end Scan
end XmlIndex
