import XmlIndex.Proofs.Parse.Runs
import XmlIndex.Proofs.Translation.Run

/-! # Ranges and namespaces

A range of a buffer is parsed as the document that it is: only the offsets of its tokens tell where
it lies, and no byte outside matters. A document that is accepted with namespaces is accepted
without, and has the same tokens.
-/
namespace XmlIndex
set_option autoImplicit false

theorem Detected.mark_of_ofHead {bytes : List Nat} {detected : Detected}
    (hHead : Detected.ofHead bytes = .ok detected) :
    detected.mark.size ≤ bytes.length ∧ detected.encoding.unitSize ∣ detected.mark.size := by
  unfold Detected.ofHead at hHead
  split at hHead <;> cases hHead <;> exact ⟨by simp [ByteOrderMark.size], by decide⟩

theorem length_headBytes (doc : ByteArray) (offset stop : Nat) :
    (headBytes doc offset stop).length ≤ stop - offset := by
  have hRange (count : Nat) : ∀ first, ((List.range' first count).filterMap
      (byteAt? doc stop)).length ≤ stop - first := by
    induction count with
    | zero => exact fun first => Nat.zero_le _
    | succ count ih =>
      intro first
      have hRest := ih (first + 1)
      rw [List.range'_succ, List.filterMap_cons]
      cases hByte : byteAt? doc stop first with
      | none => exact Nat.le_trans hRest (by omega)
      | some byte =>
        have hStop := lt_stop_of_byteAt?_eq_some hByte
        simp only [List.length_cons]
        omega
  exact hRange 4 offset

/-- The detection of a range that is not empty and not too large. -/
theorem detect_eq_ok_iff {doc : ByteArray} {offset stop : Nat} {namespaces : Bool}
    {detected : Detected} : detect doc offset stop namespaces = .ok detected ↔
      offset < stop ∧ Detected.ofHead (headBytes doc offset stop) = .ok detected ∧
        stop < sizeLimit detected.encoding namespaces := by
  unfold detect
  by_cases hEmpty : stop ≤ offset
  · rw [if_pos hEmpty]
    simp only [reduceCtorEq, false_iff]
    omega
  · rw [if_neg hEmpty]
    cases hHead : Detected.ofHead (headBytes doc offset stop) with
    | error cause =>
      simp only [reduceCtorEq, false_and, and_false, iff_false]
      exact fun hError => nomatch hError
    | ok found =>
      change (checkSize found.encoding stop namespaces >>= fun _ => Except.ok found) = _ ↔ _
      unfold checkSize
      split
      · rename_i hFits
        simp only [Except.ok.injEq]
        constructor
        · rintro hEq
          cases hEq
          exact ⟨by omega, rfl, hFits⟩
        · rintro ⟨-, rfl, -⟩
          rfl
      · rename_i hLarge
        constructor
        · intro hError
          cases hError
        · rintro ⟨-, hEq, hFits⟩
          cases hEq
          exact (hLarge hFits).elim

theorem sizeLimit_eq_of_unitSize {e e' : Encoding} (hUnit : e.unitSize = e'.unitSize)
    (namespaces : Bool) : sizeLimit e namespaces = sizeLimit e' namespaces := by
  have hUtf16 : e.isUtf16 = e'.isUtf16 := by
    unfold Encoding.unitSize at hUnit
    cases hOne : e.isUtf16 <;> cases hTwo : e'.isUtf16 <;> simp [hOne, hTwo] at hUnit ⊢
  unfold sizeLimit
  rw [hUtf16]

namespace Overlay
variable {v : Overlay}

theorem headBytes_eq (v : Overlay) (offset : Nat) :
    headBytes v.outer (v.delta + offset) (v.delta + v.stop) = headBytes v.inner offset v.stop := by
  have hBytes : (fun i => byteAt? v.outer (v.delta + v.stop) (v.delta + i)) =
      byteAt? v.inner v.stop := funext v.byteAt?_eq
  have hPlaces : [v.delta + offset, v.delta + offset + 1, v.delta + offset + 2,
      v.delta + offset + 3] =
        [offset, offset + 1, offset + 2, offset + 3].map (v.delta + ·) := rfl
  unfold headBytes
  rw [hPlaces, List.filterMap_map]
  exact congrArg (List.filterMap · _) hBytes

/-- The lexers of both documents begin alike. -/
theorem lexers_atStart {options : Options} {on on' : Bool} {detected : Detected} {w : Workspace}
    {offset offset' stop stop' : Nat} (hDraft : w.draft.tokens = #[])
    (hStop : stop = v.delta + v.stop) (hStop' : stop' = v.stop)
    (hPlace : v.Place (offset + detected.mark.size) (offset' + detected.mark.size))
    (hUnit : detected.encoding.unitSize = v.unit)
    (hOn : ¬v.lenient → on = on') (hOff : v.lenient → on' = false)
    (hFits : stop < sizeLimit detected.encoding on)
    (hFits' : stop' < sizeLimit detected.encoding on') :
    v.Lexers (.atStart options on detected v.outer offset stop w)
      (.atStart options on' detected v.inner offset' stop' w) where
  cursor :=
    { doc_eq := rfl
      doc_eq' := rfl
      stop_eq := hStop
      stop_eq' := hStop'
      start_eq := hPlace.eq
      encoding_eq := rfl
      unitSize_eq := hUnit
      offset := hPlace
      last := hPlace }
  mark_eq := rfl
  recordWhitespace_eq := rfl
  openTags := .nil
  attributes := .nil
  maxDepth_eq := rfl
  hasDoctype_eq := rfl
  draft :=
    { cache_eq := rfl
      waiting_eq := rfl
      root_eq := rfl
      tokens := ⟨⟨.document, -1, 0, 0⟩, [], by simp [Lexer.atStart, Draft.write, hDraft],
        by simp [Lexer.atStart, Draft.write, hDraft]⟩ }
  namespaces_eq hStrict := by
    rw [Lexer.scopes_atStart, Lexer.scopes_atStart]
    exact ⟨hOn hStrict, scoped_empty⟩
  namespaces_off := hOff
  fits e hSame := by
    rw [sizeLimit_eq_of_unitSize (hSame.trans hUnit.symm), ← hStop]
    exact hFits
  fits' e hSame := by
    rw [sizeLimit_eq_of_unitSize (hSame.trans hUnit.symm), ← hStop']
    exact hFits'

/-- Failures of one kind and wording at one position. -/
theorem failure_eq {s s' : Lexer} {fault fault' : Fault} (hLexers : v.Lexers s s')
    (hFaults : v.Faults fault fault') :
    (s.failure fault).fault.kind = (s'.failure fault').fault.kind ∧
      (s.failure fault).fault.message = (s'.failure fault').fault.message ∧
      (s.failure fault).position = (s'.failure fault').position := by
  have hPosition {a b : Nat} (hPlace : v.Place a b) :
      s.cursor.position a = s'.cursor.position b := by
    rw [hPlace.eq, hLexers.cursor.position_eq]
  cases hFaults with
  | same hPlaceless =>
    cases fault with
    | endOfDocument => exact ⟨rfl, rfl, rfl⟩
    | encoding cause => exact ⟨rfl, rfl, congrArg some (hPosition hLexers.cursor.last)⟩
    | reference cause => exact ⟨rfl, rfl, congrArg some (hPosition hLexers.cursor.last)⟩
    | structural cause place =>
      cases place with
      | none => exact ⟨rfl, rfl, congrArg some (hPosition hLexers.cursor.last)⟩
      | some place => cases hPlaceless
  | placed cause hPlace => exact ⟨rfl, rfl, congrArg some (hPosition hPlace)⟩

end Overlay

/-- The same findings, with all tokens but the first further on by some code units. -/
structure Index.Later (units : Nat) (x x' : Index) : Prop where
  encoding_eq : x.encoding = x'.encoding
  namespaces_eq : x.namespaces = x'.namespaces
  root_eq : x.root = x'.root
  maxDepth_eq : x.maxDepth = x'.maxDepth
  cache_eq : x.cache = x'.cache
  tokens_eq : ∃ first rest, x'.tokens.toList = first :: rest ∧
    x.tokens.toList = first :: rest.map (Token.later units)

namespace Overlay
variable {v : Overlay}

theorem Drafts.tokens_eq {d d' : Draft} (hDrafts : v.Drafts d d') (hUnits : v.units = 0) :
    d.tokens = d'.tokens := by
  obtain ⟨first, rest, hInner, hOuter⟩ := hDrafts.tokens
  have hSame : Token.later v.units = id := funext fun t => by rw [hUnits]; rfl
  rw [hSame, List.map_id, ← hInner] at hOuter
  exact Array.toList_inj.mp hOuter

theorem later_index {s s' : Lexer} (hStrict : ¬v.lenient) (hLexers : v.Lexers s s')
    (offset offset' length length' : Nat) :
    Index.Later v.units (s.index v.outer offset length).1
      (s'.index v.inner offset' length').1 where
  encoding_eq := hLexers.cursor.encoding_eq
  namespaces_eq := (hLexers.namespaces_eq hStrict).1
  root_eq := hLexers.draft.root_eq
  maxDepth_eq := hLexers.maxDepth_eq
  cache_eq := by
    change s.draft.cache.settle s.draft.waiting 1 = s'.draft.cache.settle s'.draft.waiting 1
    rw [hLexers.draft.cache_eq, hLexers.draft.waiting_eq]
  tokens_eq := hLexers.draft.tokens

end Overlay

section Parse
variable {options : Options} {namespaces : Bool} {doc : ByteArray} {offset length : Nat}

/-- What is detected depends on the first bytes alone, the size limit aside. -/
theorem detect_congr {doc' : ByteArray} {offset' stop stop' : Nat} {namespaces' : Bool}
    (hEmpty : stop ≤ offset ↔ stop' ≤ offset') (hHead : headBytes doc offset stop = headBytes doc' offset' stop')
    (hFits : ∀ detected, Detected.ofHead (headBytes doc offset stop) = .ok detected →
      stop < sizeLimit detected.encoding namespaces ∧ stop' < sizeLimit detected.encoding namespaces') :
    detect doc offset stop namespaces = detect doc' offset' stop' namespaces' := by
  unfold detect
  rw [← hHead]
  by_cases hNone : stop ≤ offset
  · rw [if_pos hNone, if_pos (hEmpty.mp hNone)]
  · rw [if_neg hNone, if_neg (hNone ∘ hEmpty.mpr)]
    cases hFound : Detected.ofHead (headBytes doc offset stop) with
    | error cause => rfl
    | ok detected =>
      obtain ⟨hFirst, hSecond⟩ := hFits detected hFound
      change (checkSize detected.encoding stop namespaces >>= fun _ => _) =
        (checkSize detected.encoding stop' namespaces' >>= fun _ => _)
      unfold checkSize
      rw [if_pos hFirst, if_pos hSecond]

theorem detect_extract
    (hSize : ∀ detected, Detected.ofHead (headBytes doc offset (offset + length)) = .ok detected →
      offset + length < sizeLimit detected.encoding namespaces) :
    detect (doc.extract offset (offset + length)) 0 (0 + length) namespaces =
      detect doc offset (offset + length) namespaces := by
  have hHead := (Overlay.ofRange doc offset length 1).headBytes_eq 0
  simp only [Overlay.ofRange, Nat.add_zero] at hHead
  refine (detect_congr (by omega) ?_ fun detected hFound => ?_).symm
  · rw [Nat.zero_add, hHead]
  · have hOuter := hSize detected hFound
    exact ⟨hOuter, by omega⟩

/-- The lexers of a range and of its bytes alone begin alike. -/
theorem Overlay.lexers_atRange {detected : Detected} (options : Options)
    (hDetect : detect doc offset (offset + length) namespaces = .ok detected)
    (hDetect' : detect (doc.extract offset (offset + length)) 0 (0 + length) namespaces = .ok detected) :
    (Overlay.ofRange doc offset length detected.encoding.unitSize).Lexers
      (.atRange options namespaces detected doc offset length)
      (.atRange options namespaces detected (doc.extract offset (offset + length)) 0 length) := by
  let v : Overlay := .ofRange doc offset length detected.encoding.unitSize
  obtain ⟨hNonempty, hHead, hFits⟩ := detect_eq_ok_iff.mp hDetect
  obtain ⟨hMark, hUnit⟩ := Detected.mark_of_ofHead hHead
  have hBytes := length_headBytes doc offset (offset + length)
  have hPlace : v.Place (offset + detected.mark.size) (0 + detected.mark.size) := by
    refine ⟨by rw [Nat.zero_add]; rfl, ?_, .inr ?_⟩
    · change 0 + detected.mark.size ≤ length
      omega
    · rw [Nat.zero_add]
      exact hUnit
  exact v.lexers_atStart rfl rfl (Nat.zero_add length) hPlace rfl (fun _ => rfl) False.elim hFits
    (detect_eq_ok_iff.mp hDetect').2.2

/-- The lexers that are done with a range that is parsed and with its bytes alone. -/
theorem exists_runs_of_parseRange {x : Index} (hOk : parseRange options namespaces doc offset length = .ok x) :
    ∃ detected s s', detect doc offset (offset + length) namespaces = .ok detected ∧
      x = (s.index doc offset length).1 ∧
      parse options namespaces (doc.extract offset (offset + length)) =
        .ok (s'.index (doc.extract offset (offset + length)) 0 length).1 ∧
      (Overlay.ofRange doc offset length detected.encoding.unitSize).Lexers s s' := by
  have hRange := le_size_of_parseRange hOk
  have hExtract : (doc.extract offset (offset + length)).size = length := by
    rw [ByteArray.size_extract]
    omega
  obtain ⟨detected, s, hDetect, hRun, hIndex⟩ := exists_run_of_parseRange hOk
  have hDetect' : detect (doc.extract offset (offset + length)) 0 (0 + length) namespaces = .ok detected := by
    rw [detect_extract, hDetect]
    intro other hHead
    obtain ⟨-, hThis, hFits⟩ := detect_eq_ok_iff.mp hDetect
    obtain rfl : detected = other := Except.ok.inj (hThis.symm.trans hHead)
    exact hFits
  have hRuns := Overlay.lexes_run .start _ _ (Overlay.lexers_atRange options hDetect hDetect')
  rw [hRun] at hRuns
  unfold parse
  rw [hExtract, parseRange_of_detected (by omega) hDetect']
  cases hInner : Lex.run .start (.atRange options namespaces detected
      (doc.extract offset (offset + length)) 0 length) with
  | error fault s' =>
    rw [hInner] at hRuns
    exact hRuns.elim
  | ok u s' =>
    rw [hInner] at hRuns
    exact ⟨detected, s, s', hDetect, hIndex, rfl, hRuns.2⟩

/-- A range that is parsed is parsed as its bytes alone are, with all tokens further on. -/
theorem later_of_parseRange {x : Index} (hOk : parseRange options namespaces doc offset length = .ok x) :
    ∃ x', parse options namespaces (doc.extract offset (offset + length)) = .ok x' ∧
      x'.document = x.document ∧ Index.Later (offset / x.encoding.unitSize) x x' := by
  obtain ⟨detected, s, s', -, rfl, hInner, hLexers⟩ := exists_runs_of_parseRange hOk
  refine ⟨_, hInner, ?_, ?_⟩
  · change (doc.extract offset (offset + length)).extract 0 (0 + length) = doc.extract offset (offset + length)
    rw [ByteArray.extract_extract, Nat.add_zero, Nat.zero_add, Nat.min_self]
  · have hUnit : (s.index doc offset length).1.encoding.unitSize = detected.encoding.unitSize := hLexers.unitSize_eq
    rw [hUnit]
    exact Overlay.later_index id hLexers offset 0 length length

/-- The encoding that is declared has units as wide as those that were detected. -/
theorem unitSize_of_parseRange {x : Index} (hOk : parseRange options namespaces doc offset length = .ok x) :
    ∃ detected, detect doc offset (offset + length) namespaces = .ok detected ∧
      x.encoding.unitSize = detected.encoding.unitSize := by
  obtain ⟨detected, s, s', hDetect, rfl, -, hLexers⟩ := exists_runs_of_parseRange hOk
  exact ⟨detected, hDetect, hLexers.unitSize_eq⟩

/-- A parse of a range ends as that of its bytes alone does: with the same findings, which lie
further on by the units before the range, or with the same failure. -/
theorem parseRange_translates (hRange : offset + length ≤ doc.size)
    (hSize : ∀ detected, Detected.ofHead (headBytes doc offset (offset + length)) = .ok detected →
      offset + length < sizeLimit detected.encoding namespaces) :
    (∃ x x', parseRange options namespaces doc offset length = .ok x ∧
      parse options namespaces (doc.extract offset (offset + length)) = .ok x' ∧
      Index.Later (offset >>> x.encoding.unitShift) x x') ∨
    ∃ failure failure', parseRange options namespaces doc offset length = .error failure ∧
      parse options namespaces (doc.extract offset (offset + length)) = .error failure' ∧
      failure.fault.kind = failure'.fault.kind ∧ failure.fault.message = failure'.fault.message ∧
      failure.position = failure'.position := by
  have hExtract : (doc.extract offset (offset + length)).size = length := by
    rw [ByteArray.size_extract]
    omega
  have hRange' : 0 + length ≤ (doc.extract offset (offset + length)).size := by omega
  have hDetect' := detect_extract hSize
  unfold parse
  rw [hExtract]
  cases hDetect : detect doc offset (offset + length) namespaces with
  | error cause =>
    rw [hDetect] at hDetect'
    rw [parseRange_of_undetected hRange hDetect, parseRange_of_undetected hRange' hDetect']
    exact .inr ⟨_, _, rfl, rfl, rfl, rfl, rfl⟩
  | ok detected =>
    rw [hDetect] at hDetect'
    rw [parseRange_of_detected hRange hDetect, parseRange_of_detected hRange' hDetect']
    let v : Overlay := .ofRange doc offset length detected.encoding.unitSize
    have hLexers := Overlay.lexers_atRange options hDetect hDetect'
    have hRun := Overlay.lexes_run .start _ _ hLexers
    revert hRun
    cases Lex.run .start (.atRange options namespaces detected doc offset length) <;>
      cases Lex.run .start (.atRange options namespaces detected
        (doc.extract offset (offset + length)) 0 length) <;> intro hRun
    case ok.ok s _ s' =>
      have hUnits : offset >>> s.cursor.encoding.unitShift = v.units := by
        rw [Nat.shiftRight_eq_div_pow, ← Encoding.unitSize_eq_two_pow, hRun.2.unitSize_eq]
        rfl
      refine .inl ⟨_, _, rfl, rfl, ?_⟩
      change Index.Later (offset >>> s.cursor.encoding.unitShift) _ _
      rw [hUnits]
      exact v.later_index id hRun.2 offset 0 length length
    case ok.error => exact hRun.elim
    case error.ok => exact hRun.elim
    case error.error =>
      obtain hNone | ⟨hFaults, hAfter⟩ := hRun
      · exact hNone.elim
      · exact .inr ⟨_, _, rfl, rfl, v.failure_eq hAfter hFaults⟩

/-- `<a/>` in 16-bit units with their mark, after one more byte. -/
def shiftedTag : ByteArray :=
  ⟨#[0x00, 0xFF, 0xFE, 0x3C, 0x00, 0x61, 0x00, 0x2F, 0x00, 0x3E, 0x00]⟩

def shiftedIndex : Index where
  buffer := shiftedTag
  docOffset := 1
  docLength := 10
  encoding := .utf16 .little
  namespaces := false
  maxDepth := 0
  root := some 1
  tokens := #[⟨.document, -1, 0, 0⟩, ⟨.startTag, 0, 2, 1⟩]
  cache := ⟨#[#[], #[]], #[]⟩

theorem parseRange_shiftedTag : parseRange {} false shiftedTag 1 10 = .ok shiftedIndex :=
  @parseRange_of_runWithin _ _ _ _ _ 3 ⟨.utf16 .little, .utf16⟩ _ (by decide) rfl (by with_unfolding_all rfl)

theorem parse_shiftedTag : parse {} false (shiftedTag.extract 1 11) =
    .ok { shiftedIndex with buffer := shiftedTag.extract 1 11, docOffset := 0 } :=
  @parseRange_of_runWithin _ _ _ _ _ 3 ⟨.utf16 .little, .utf16⟩ _ (by decide) rfl (by with_unfolding_all rfl)

/-- Both are parsed, and the offsets before the tag come to no whole unit. -/
theorem parseRange_translates_shiftedTag : ∃ x', parseRange {} false shiftedTag 1 10 = .ok shiftedIndex ∧
    parse {} false (shiftedTag.extract 1 11) = .ok x' ∧ Index.Later 0 shiftedIndex x' := by
  have hFits (detected : Detected) (hHead : Detected.ofHead (headBytes shiftedTag 1 (1 + 10)) = .ok detected) :
      1 + 10 < sizeLimit detected.encoding false := by
    have hDetected : Detected.ofHead (headBytes shiftedTag 1 11) = .ok ⟨.utf16 .little, .utf16⟩ := by decide
    obtain rfl : ⟨.utf16 .little, .utf16⟩ = detected := Except.ok.inj (hDetected.symm.trans hHead)
    decide
  obtain ⟨x, x', hOuter, hInner, hLater⟩ | ⟨failure, failure', hFails, -⟩ :=
    @parseRange_translates {} false shiftedTag 1 10 (by decide) hFits
  · obtain rfl := Except.ok.inj (parseRange_shiftedTag.symm.trans hOuter)
    exact ⟨x', hOuter, hInner, hLater⟩
  · exact absurd (parseRange_shiftedTag.symm.trans hFails) nofun

theorem sizeLimit_le (e : Encoding) (namespaces : Bool) :
    sizeLimit e namespaces ≤ sizeLimit e false := by
  unfold sizeLimit
  split <;> simp

theorem detect_of_namespaces {detected : Detected} {stop : Nat}
    (hDetect : detect doc offset stop namespaces = .ok detected) :
    detect doc offset stop false = .ok detected := by
  obtain ⟨hNonempty, hHead, hFits⟩ := detect_eq_ok_iff.mp hDetect
  exact detect_eq_ok_iff.mpr ⟨hNonempty, hHead, Nat.lt_of_lt_of_le hFits (sizeLimit_le _ _)⟩

/-- The lexers of a range begin alike, with namespaces or without. -/
theorem Overlay.lexers_withoutNamespaces {detected : Detected} (options : Options)
    (hDetect : detect doc offset (offset + length) namespaces = .ok detected) :
    (Overlay.withoutNamespaces doc (offset + length) detected.encoding.unitSize).Lexers
      (.atRange options namespaces detected doc offset length)
      (.atRange options false detected doc offset length) := by
  let v : Overlay := .withoutNamespaces doc (offset + length) detected.encoding.unitSize
  obtain ⟨hNonempty, hHead, hFits⟩ := detect_eq_ok_iff.mp hDetect
  have hMark := (Detected.mark_of_ofHead hHead).1
  have hBytes := length_headBytes doc offset (offset + length)
  have hPlace : v.Place (offset + detected.mark.size) (offset + detected.mark.size) := by
    refine ⟨(Nat.zero_add _).symm, ?_, .inl (Nat.dvd_zero _)⟩
    change offset + detected.mark.size ≤ offset + length
    omega
  exact v.lexers_atStart rfl (Nat.zero_add _).symm rfl hPlace rfl (fun hStrict => (hStrict trivial).elim)
    (fun _ => rfl) hFits (detect_eq_ok_iff.mp (detect_of_namespaces hDetect)).2.2

/-- Whatever is accepted with namespaces is accepted without them, with the same tokens. -/
theorem parseRange_of_namespaces {x : Index}
    (hOk : parseRange options namespaces doc offset length = .ok x) :
    parseRange options false doc offset length = .ok { x with namespaces := false } := by
  have hRange := le_size_of_parseRange hOk
  cases hDetect : detect doc offset (offset + length) namespaces with
  | error cause =>
    rw [parseRange_of_undetected hRange hDetect] at hOk
    cases hOk
  | ok detected =>
    rw [parseRange_of_detected hRange hDetect] at hOk
    rw [parseRange_of_detected hRange (detect_of_namespaces hDetect)]
    have hRun := Overlay.lexes_run .start _ _ (Overlay.lexers_withoutNamespaces options hDetect)
    revert hRun hOk
    cases Lex.run .start (.atRange options namespaces detected doc offset length) <;>
      cases Lex.run .start (.atRange options false detected doc offset length) <;> intro hOk hRun
    case ok.ok s _ s' =>
      cases hOk
      have hTokens : s.draft.tokens = s'.draft.tokens :=
        hRun.2.draft.tokens_eq (Nat.zero_div _)
      change Except.ok (Index.mk doc offset length s'.cursor.encoding s'.namespaces s'.maxDepth
        s'.draft.root s'.draft.tokens (s'.draft.cache.settle s'.draft.waiting 1)) =
          Except.ok (Index.mk doc offset length s.cursor.encoding false s.maxDepth s.draft.root
            s.draft.tokens (s.draft.cache.settle s.draft.waiting 1))
      rw [hRun.2.namespaces_off trivial, hRun.2.cursor.encoding_eq, hRun.2.maxDepth_eq,
        hRun.2.draft.root_eq, hRun.2.draft.cache_eq, hRun.2.draft.waiting_eq, hTokens]
    case ok.error => exact hRun.elim
    all_goals cases hOk

end Parse
end XmlIndex
