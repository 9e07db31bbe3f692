import XmlIndex.Proofs.Guarded.Names

/-! # End tags that name another element

The name of an end tag is not read. As many bytes as the name of the open element has are compared with it, if more
than these are left of the range; what follows them must be space up to `>`. So the failure that an end tag of another
name amounts to depends on what that name has in common with the name of the open element, and on what is left.
-/
namespace XmlIndex
set_option autoImplicit false
open Grammar

theorem Grammar.IsName.isName_of_prefix {name lead : Chars} {ch : CodePoint} (hName : IsName name) (hLead : lead ≠ [])
    (hPrefix : lead ++ [ch] <+: name) : CodePoint.isName ch = true := by
  obtain ⟨rest, rfl⟩ := hPrefix
  cases lead with
  | nil => exact absurd rfl hLead
  | cons first more => exact hName.2 ch (by simp)

namespace Cursor
variable {c : Cursor} {text other gap name : Chars} {ch : CodePoint}

/-- What is read at a place begins with whatever else is read there and is no longer. -/
theorem Reads.prefix_of_length_le (hText : c.Reads text) (hOther : c.Reads other) (hLength : text.length ≤ other.length) :
    text <+: other := by
  rw [← List.take_append_drop text.length other] at hOther ⊢
  have hTake := hText.eq_of_length (reads_append.mp hOther).1 (by simp [hLength])
  rw [← hTake]
  exact List.prefix_append _ _

/-- A name comes where another one stands just if the other begins with it. -/
theorem reads_name_iff (hName : IsName name) (hOther : IsName other) (hEnd : CodePoint.isName ch = false)
    (hText : c.Reads (other ++ [ch])) : c.Reads name ↔ name <+: other := by
  constructor
  · intro hReads
    by_cases hLength : name.length ≤ other.length
    · exact hReads.prefix_of_length_le (reads_append.mp hText).1 hLength
    · have hLonger := hText.prefix_of_length_le hReads (by simp; omega)
      rw [hName.isName_of_prefix hOther.ne_nil hLonger] at hEnd
      cases hEnd
  · rintro ⟨rest, rfl⟩
    exact (reads_append.mp (reads_append.mp hText).1).1

end Cursor

namespace Scan
variable {c : Cursor} {span : Span} {name : Chars}

theorem skipAgain_of_stop_le (hSpan : c.Covers span name) (hStop : c.stop ≤ c.offset + c.encoding.size name) :
    skipAgain span.offset span.length c = .error .endOfDocument c := by
  rw [skipAgain, hSpan.length_eq, if_pos hStop]

theorem skipAgain_of_not_reads (hSpan : c.Covers span name) (hRoom : c.offset + c.encoding.size name < c.stop)
    (hReads : ¬c.Reads name) : skipAgain span.offset span.length c = .ok false c := by
  have hSame := @Cursor.sameBytes_iff_readsAt c _ c.offset _ hSpan.reads (Nat.le_of_lt hRoom)
  rw [skipAgain, hSpan.length_eq, if_neg (Nat.not_le.mpr hRoom), if_neg fun h => hReads (hSame.mp h)]

end Scan

namespace Lex
variable {s : Lexer} {tag : Span} {outer : List Span} {name other : Chars} {ch : CodePoint}

/-- An end tag, its name compared, inside an element that is known. -/
theorem endTag_of_cons (hTags : s.openTags = tag :: outer) : endTag s =
    (read (Scan.skipAgain tag.offset tag.length) >>= fun same => requireAt s.cursor.offset same .mismatchedTag >>= fun _ =>
      update ({ · with openTags := outer }) >>= fun _ => read Scan.nextAfterSpace >>= fun ch =>
        require (ch = CodePoint.greaterThan) (.invalidCharacter .endTag) >>= fun _ =>
          if outer.isEmpty then pure .epilog else afterMarkup) s := by
  have hLook : look (·.openTags) s = .ok (tag :: outer) s := hTags ▸ rfl
  have hOffset : read Scan.offset s = .ok s.cursor.offset s := rfl
  exact (Guarded.bind_eq_of_ok hOffset).trans (Guarded.bind_eq_of_ok hLook)

theorem endTag_of_stop_le (hTags : s.openTags = tag :: outer) (hSpan : s.cursor.Covers tag name)
    (hStop : s.cursor.stop ≤ s.cursor.offset + s.cursor.encoding.size name) : endTag s = .error .endOfDocument s := by
  rw [endTag_of_cons hTags]
  refine Guarded.bind_eq_of_error ?_
  rw [read, Scan.skipAgain_of_stop_le hSpan hStop]

theorem endTag_of_not_reads (hTags : s.openTags = tag :: outer) (hSpan : s.cursor.Covers tag name)
    (hRoom : s.cursor.offset + s.cursor.encoding.size name < s.cursor.stop) (hReads : ¬s.cursor.Reads name) :
    endTag s = .error (.structural .mismatchedTag (some s.cursor.offset)) s := by
  rw [endTag_of_cons hTags]
  have hAgain : read (Scan.skipAgain tag.offset tag.length) s = .ok false s := by
    rw [read, Scan.skipAgain_of_not_reads hSpan hRoom hReads]
  rw [Guarded.bind_eq_of_ok hAgain]
  exact Guarded.bind_eq_of_error rfl

/-- The name of the element comes, and goes on. -/
theorem endTag_of_goesOn (hTags : s.openTags = tag :: outer) (hSpan : s.cursor.Covers tag name)
    (hRoom : s.cursor.offset + s.cursor.encoding.size name < s.cursor.stop) (hReads : s.cursor.Reads (name ++ [ch]))
    (hName : CodePoint.isName ch = true) :
    endTag s = .error (.structural (.invalidCharacter .endTag) none) ((popped s).past (name ++ [ch])) := by
  obtain ⟨hKnown, hNext⟩ := Cursor.reads_append.mp hReads
  have hAgain : read (Scan.skipAgain tag.offset tag.length) s = .ok true (skipped s name) :=
    (read_skipAgain_eq_ok_true_iff hSpan).mpr ⟨hKnown, hRoom, rfl⟩
  have hClose : update ({ · with openTags := outer }) (skipped s name) = .ok () (skipped (popped s) name) := by
    rw [show outer = s.openTags.tail by rw [hTags]; rfl]
    rfl
  have hSpace : CodePoint.isSpace ch = false := by
    cases hSpace : CodePoint.isSpace ch with
    | false => rfl
    | true =>
      rw [CodePoint.isName_of_isSpace hSpace] at hName
      cases hName
  have hCharacter : read Scan.nextAfterSpace (skipped (popped s) name) = .ok ch ((popped s).past (name ++ [ch])) :=
    read_nextAfterSpace_eq_ok_iff.mpr
      ⟨[], reads_skipped.mpr hNext, nofun, hSpace, (past_skipped (List.cons_ne_nil _ _)).symm⟩
  have hOther : decide (ch = CodePoint.greaterThan) = false := by
    refine decide_eq_false ?_
    rintro rfl
    cases hName
  rw [endTag_of_cons hTags, Guarded.bind_eq_of_ok hAgain]
  refine (Guarded.bind_eq_of_ok rfl).trans ((Guarded.bind_eq_of_ok hClose).trans ?_)
  rw [Guarded.bind_eq_of_ok hCharacter, hOther]
  rfl

end Lex
namespace Lexer
variable {s : Lexer} {tag : Span} {outer : List Span} {name other space : Chars}

/-- The failure of a parse at an end tag of another name than that of the open element, which is `name`. The document
ends for the lexer as soon as no more than the bytes of `name` are left; else names are told apart where they differ,
and one that goes on after `name` where it does so. -/
def mismatch (s : Lexer) (name other : Chars) : Failure :=
  let stop := s.cursor.offset + s.cursor.encoding.size name
  if s.cursor.stop ≤ stop then ⟨.endOfDocument, none⟩
  else if name <+: other then ⟨.structural (.invalidCharacter .endTag) none, some (s.cursor.position stop)⟩
  else ⟨.structural .mismatchedTag (some s.cursor.offset), some (s.cursor.position s.cursor.offset)⟩

/-- What ends a name in an end tag is no part of a name. -/
theorem exists_reads_of_endTag {c : Cursor} (hSpace : IsSpace space)
    (hReads : c.Reads (other ++ (space ++ [CodePoint.greaterThan]))) :
    ∃ ch, CodePoint.isName ch = false ∧ c.Reads (other ++ [ch]) := by
  cases space with
  | nil => exact ⟨_, by decide, hReads⟩
  | cons ch rest =>
    refine ⟨ch, CodePoint.isName_of_isSpace (hSpace ch List.mem_cons_self), ?_⟩
    rw [List.cons_append, List.append_cons] at hReads
    exact (Cursor.reads_append.mp hReads).1

theorem endTag_fails (hTags : s.openTags = tag :: outer) (hSpan : s.cursor.Covers tag name) (hName : IsName name)
    (hOther : IsName other) (hDiffers : other ≠ name) (hSpace : IsSpace space)
    (hReads : s.cursor.Reads (other ++ (space ++ [CodePoint.greaterThan]))) :
    ∃ fault s', Lex.endTag s = .error fault s' ∧ s'.failure fault = s.mismatch name other := by
  unfold mismatch
  by_cases hStop : s.cursor.stop ≤ s.cursor.offset + s.cursor.encoding.size name
  · rw [if_pos hStop]
    exact ⟨_, _, Lex.endTag_of_stop_le hTags hSpan hStop, rfl⟩
  · rw [if_neg hStop]
    have hRoom := Nat.not_le.mp hStop
    obtain ⟨ch, hEnd, hText⟩ := exists_reads_of_endTag hSpace hReads
    have hSame := Cursor.reads_name_iff hName hOther hEnd hText
    by_cases hPrefix : name <+: other
    · rw [if_pos hPrefix]
      obtain ⟨more, rfl⟩ := hPrefix
      cases more with
      | nil => exact absurd (List.append_nil name) hDiffers
      | cons d rest =>
        rw [List.append_cons] at hOther hReads
        have hMore := hOther.isName_of_prefix hName.ne_nil (List.prefix_append (name ++ [d]) rest)
        have hHead := (Cursor.reads_append.mp (Cursor.reads_append.mp hReads).1).1
        refine ⟨_, _, Lex.endTag_of_goesOn hTags hSpan hRoom hHead hMore, ?_⟩
        simp [failure, Fault.offset?, Lex.popped, Cursor.position]
    · rw [if_neg hPrefix]
      exact ⟨_, _, Lex.endTag_of_not_reads hTags hSpan hRoom fun h => hPrefix (hSame.mp h), rfl⟩

end Lexer

section
variable {options : Options} {namespaces : Bool} {doc : ByteArray} {offset length : Nat} {w : Workspace}
  {detected : Detected} {s : Lexer} {tag : Span} {outer : List Span}

/-- Wherever a parse comes to the name of an end tag inside an element, that element has a name; and if another name
comes, perhaps space, and `>`, the parse fails. The failure is a syntax error as long as more bytes are left of the
range than the name of the element has: that the tags do not match, or that a character of the name does not belong
there. It is the premature end of the document otherwise, whatever has been read. -/
theorem parseRange_of_otherEndTag (hRange : offset + length ≤ doc.size)
    (hDetected : detect doc offset (offset + length) namespaces = .ok detected)
    (hReachable : Guarded.Lexing.Reachable (.atStart options namespaces detected doc offset (offset + length) w) .endTag s)
    (hOpen : s.openTags = tag :: outer) :
    ∃ name, IsName name ∧ s.cursor.Covers tag name ∧ ∀ other space, IsName other → other ≠ name → IsSpace space →
      s.cursor.Reads (other ++ (space ++ [CodePoint.greaterThan])) →
      (Workspace.parseRange options namespaces doc offset length w).1 = .error (s.mismatch name other) := by
  have hFirst := @Guarded.safe_atStart options _ _ _ _ w _ hRange hDetected
  obtain ⟨name, hName, hCovers⟩ := (hReachable.hasNames hFirst rfl).1 tag (hOpen ▸ List.mem_cons_self)
  refine ⟨name, hName, hCovers, fun other space hOther hDiffers hSpace hReads => ?_⟩
  obtain ⟨fault, s', hFails, hFailure⟩ := Lexer.endTag_fails hOpen hCovers hName hOther hDiffers hSpace hReads
  have hRun := (hReachable.run_eq hFirst).trans (Guarded.bind_eq_of_error hFails)
  rw [Workspace.parseRange, if_neg (Nat.not_lt.mpr hRange), hDetected]
  dsimp only
  rw [hRun]
  exact congrArg Except.error hFailure

end

/-- `<abc></a>` -/
def shorterEndTag : ByteArray :=
  ⟨#[0x3C, 0x61, 0x62, 0x63, 0x3E, 0x3C, 0x2F, 0x61, 0x3E]⟩

namespace Lexer

def beforeShorterEndTag : Lexer :=
  .atStart {} false ⟨.utf8, .none⟩ shorterEndTag 0 (0 + 9) { draft := .empty (({} : Options).cacheDepth.levels 9) }

def atShorterEndTag : Lexer :=
  { beforeShorterEndTag with
    cursor := { beforeShorterEndTag.cursor with offset := 7, last := 6 }
    openTags := [⟨1, 3⟩]
    draft :=
      { tokens := #[⟨.document, -1, 0, 0⟩, ⟨.startTag, 0, 1, 3⟩, ⟨.characterData, 0, 5, 0⟩]
        cache := ⟨#[#[], #[]], #[]⟩
        waiting := none
        root := some 1 } }

theorem reachable_shorterEndTag : Guarded.Lexing.Reachable beforeShorterEndTag .endTag atShorterEndTag := by
  have hStart : Guarded.Lexing.step .start beforeShorterEndTag =
      .ok .markup (beforeShorterEndTag.past [0x3C]) := rfl
  have hMarkup : Guarded.Lexing.step .markup (beforeShorterEndTag.past [0x3C]) =
      .ok (.startTag 1) (beforeShorterEndTag.past [0x3C, 0x61]) := rfl
  have hStartTag : Guarded.Lexing.step (.startTag 1) (beforeShorterEndTag.past [0x3C, 0x61]) =
      .ok .endTag atShorterEndTag := by with_unfolding_all rfl
  exact .step (.step (.step .start hStart) hMarkup) hStartTag

end Lexer

theorem parseRange_of_otherEndTag_shorter : 0 + 9 ≤ shorterEndTag.size ∧
    detect shorterEndTag 0 (0 + 9) false = .ok ⟨.utf8, .none⟩ ∧
    Guarded.Lexing.Reachable Lexer.beforeShorterEndTag .endTag Lexer.atShorterEndTag ∧
    Lexer.atShorterEndTag.openTags = [⟨1, 3⟩] ∧
    (Workspace.parseRange {} false shorterEndTag 0 9 { draft := .empty (({} : Options).cacheDepth.levels 9) }).1 =
      .error ⟨.endOfDocument, none⟩ := by
  have hRange : 0 + 9 ≤ shorterEndTag.size := by decide
  have hDetected : detect shorterEndTag 0 (0 + 9) false = .ok ⟨.utf8, .none⟩ := rfl
  have hReachable := Lexer.reachable_shorterEndTag
  obtain ⟨name, -, hCovers, hFails⟩ := parseRange_of_otherEndTag hRange hDetected hReachable rfl
  have hKnown : Lexer.atShorterEndTag.cursor.ReadsAt 1 [0x61, 0x62, 0x63] := ⟨rfl, rfl, rfl, trivial⟩
  obtain rfl : name = [0x61, 0x62, 0x63] := hCovers.reads.eq_of_size hKnown hCovers.length_eq.symm
  have hReads : Lexer.atShorterEndTag.cursor.Reads ([0x61] ++ ([] ++ [CodePoint.greaterThan])) := ⟨rfl, rfl, trivial⟩
  have hMismatch : Lexer.atShorterEndTag.mismatch [0x61, 0x62, 0x63] [0x61] = ⟨.endOfDocument, none⟩ := rfl
  refine ⟨hRange, hDetected, hReachable, rfl, ?_⟩
  rw [hFails [0x61] [] ⟨by decide, by decide⟩ (by decide) (List.forall_mem_nil _) hReads, hMismatch]

end XmlIndex
