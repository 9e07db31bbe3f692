import XmlIndex.Proofs.Parse.Restriction
import XmlIndex.Proofs.Parse.Shape

/-! # Documents that go on

A document is read from front to back: what has been found in the first part of it stays, whatever comes
after. So a document that is cut off either is parsed as the whole is, or has not come to its end, or holds
the fault that the whole is refused for.
-/
namespace XmlIndex
set_option autoImplicit false
open Grammar

theorem Grammar.Markup.kind_ne_startTag {e : Encoding} {depth : Int} {place : Nat} {m : Markup} :
    ∀ t ∈ m.tokens e depth place, t.kind ≠ .startTag := by
  intro t ht
  cases m with
  | comment body =>
    obtain ⟨i, -, rfl⟩ := mem_pieces.mp ht
    nofun
  | «section» body =>
    obtain ⟨i, -, rfl⟩ := mem_pieces.mp ht
    nofun
  | documentType body =>
    obtain rfl := List.mem_singleton.mp ht
    nofun
  | instruction target data =>
    cases data with
    | none => rcases List.mem_pair.mp ht with rfl | rfl <;> nofun
    | some data => rcases List.mem_pair.mp ht with rfl | rfl <;> nofun

/-- After the root comments and instructions alone are found, which open no element. -/
theorem Lex.exists_more_of_completes_epilog {s : Lexer} {r : Reading} (hCompletes : Completes (run .epilog) s r) :
    r.encoding = s.cursor.encoding ∧ ∃ more, r.tokens = s.tokens ++ more ∧ ∀ t ∈ more, t.kind ≠ .startTag := by
  -- The induction is on what is left to read.
  induction hSize : s.remaining using Nat.strongRecOn generalizing s with
  | ind size ih =>
    obtain ⟨space, -, ⟨-, -, rfl⟩ | ⟨m, -, -, -, hText, hRest⟩⟩ := completes_epilog_iff.mp hCompletes
    · exact ⟨Cursor.encoding_advance, [], (List.append_nil _).symm, nofun⟩
    · obtain ⟨hEncoding, more, hTokens, hMore⟩ := ih _ (hSize ▸ remaining_after_lt hText) hRest rfl
      rw [cursor_past_after, Cursor.encoding_advance] at hEncoding
      rw [tokens_after, Lexer.tokens_past, List.append_assoc] at hTokens
      exact ⟨hEncoding, _, hTokens, List.forall_mem_append.mpr ⟨Markup.kind_ne_startTag, hMore⟩⟩

section
variable {levels : CacheLevels} {tokens more : List Token}

/-- Tokens that open no element leave all else in the draft as it is. -/
theorem Draft.exists_ofTokens_append (hMore : ∀ t ∈ more, t.kind ≠ .startTag) :
    ∃ written, ofTokens levels (tokens ++ more) = { ofTokens levels tokens with tokens := written } := by
  induction more using List.reverseRecOn with
  | nil => exact ⟨_, by rw [List.append_nil]⟩
  | append_singleton more t ih =>
    obtain ⟨hRest, hLast⟩ := List.forall_mem_append.mp hMore
    obtain ⟨written, hDraft⟩ := ih hRest
    refine ⟨written.push t, ?_⟩
    rw [← List.append_assoc, ofTokens_append_singleton, hDraft, rewrite, if_neg (hLast t List.mem_cons_self)]
    rfl

theorem Token.deepest_append (hMore : ∀ t ∈ more, t.kind ≠ .startTag) : deepest (tokens ++ more) = deepest tokens := by
  induction more using List.reverseRecOn with
  | nil => rw [List.append_nil]
  | append_singleton more t ih =>
    obtain ⟨hRest, hLast⟩ := List.forall_mem_append.mp hMore
    rw [← List.append_assoc, deepest, List.foldl_concat, if_neg (hLast t List.mem_cons_self)]
    exact ih hRest

end

theorem headBytes_longer {doc : ByteArray} {offset stop stop' : Nat} (hHead : offset + 4 ≤ stop)
    (hStop : stop ≤ stop') : headBytes doc offset stop' = headBytes doc offset stop := by
  unfold headBytes
  refine List.filterMap_congr fun i hi => byteAt?_longer hStop ?_
  simp only [List.mem_cons, List.not_mem_nil, or_false] at hi
  omega

namespace Overlay
variable {v : Overlay} {s s' : Lexer} {fault fault' : Fault}

theorem Faults.place_le (hFaults : v.Faults fault fault') (hLexers : v.Lexers s s') :
    fault.offset?.getD s.cursor.last ≤ s.cursor.stop := by
  have hInside {a b : Nat} (hPlace : v.Place a b) : a ≤ s.cursor.stop := by
    rw [hPlace.eq, hLexers.cursor.stop_eq]
    exact Nat.add_le_add_left hPlace.le v.delta
  cases hFaults with
  | same hPlaceless =>
    rw [hPlaceless]
    exact hInside hLexers.cursor.last
  | placed cause hPlace => exact hInside hPlace

theorem Faults.isUnfinished (hFaults : v.Faults fault fault') (hUnfinished : fault.IsUnfinished) :
    fault'.IsUnfinished := by
  cases hFaults with
  | same hPlaceless => exact hUnfinished
  | placed cause hPlace => cases cause <;> exact hUnfinished

end Overlay

/-- Where the document ends does not matter for a failure before. -/
theorem Lexer.failure_longer {s t : Lexer} {fault : Fault} (hCursors : Variation.extent.Cursors s.cursor t.cursor)
    (hPlace : fault.offset?.getD s.cursor.last ≤ s.cursor.stop) : t.failure fault = s.failure fault := by
  have hPosition : t.cursor.position (fault.offset?.getD t.cursor.last) =
      s.cursor.position (fault.offset?.getD s.cursor.last) := by
    have hPlace' := Nat.le_trans hPlace hCursors.stop_le
    rw [hCursors.eq]
    unfold Cursor.position Cursor.upTo
    rw [Nat.min_eq_left hPlace, Nat.min_eq_left hPlace']
  cases fault with
  | endOfDocument => rfl
  | _ => exact congrArg (Failure.mk _ ∘ some) hPosition

/-- The second index has all that the first has, and may have more tokens at the end. -/
structure Index.ExtendedBy (x y : Index) : Prop where
  tokens : x.tokens.toList <+: y.tokens.toList
  root : y.root = x.root
  maxDepth : y.maxDepth = x.maxDepth
  encoding : y.encoding = x.encoding
  cache : y.cache = x.cache

section
variable {options : Options} {namespaces : Bool} {doc more : ByteArray} {x y : Index}

theorem extract_append_left : (doc ++ more).extract 0 (0 + doc.size) = doc := by
  rw [Nat.zero_add]
  exact ByteArray.extract_append_eq_left rfl

theorem detect_append (hHead : 4 ≤ doc.size)
    (hSize : ∀ detected, Detected.ofHead (headBytes (doc ++ more) 0 (doc ++ more).size) = .ok detected →
      (doc ++ more).size < sizeLimit detected.encoding namespaces) :
    detect doc 0 (0 + doc.size) namespaces = detect (doc ++ more) 0 (0 + doc.size) namespaces ∧
      detect (doc ++ more) 0 (0 + doc.size) namespaces =
        detect (doc ++ more) 0 (0 + (doc ++ more).size) namespaces := by
  have hLess : doc.size ≤ (doc ++ more).size := by
    rw [ByteArray.size_append]
    exact Nat.le_add_right _ _
  have hLonger : headBytes (doc ++ more) 0 (0 + (doc ++ more).size) = headBytes (doc ++ more) 0 (0 + doc.size) :=
    headBytes_longer (by omega) (by omega)
  have hFits : ∀ detected, Detected.ofHead (headBytes (doc ++ more) 0 (0 + doc.size)) = .ok detected →
      (doc ++ more).size < sizeLimit detected.encoding namespaces := by
    intro detected hFound
    rw [← hLonger, Nat.zero_add] at hFound
    exact hSize detected hFound
  constructor
  · have hExtract := @detect_extract namespaces (doc ++ more) 0 doc.size fun detected hFound => by
      have := hFits detected hFound
      omega
    rwa [extract_append_left] at hExtract
  · refine detect_congr (by omega) hLonger.symm fun detected hFound => ?_
    have := hFits detected hFound
    exact ⟨by omega, by omega⟩

theorem levels_of_ne (hDepth : options.cacheDepth ≠ .automatic) (length length' : Nat) :
    options.cacheDepth.levels length' = options.cacheDepth.levels length := by
  cases hCases : options.cacheDepth
  case automatic => exact absurd hCases hDepth
  all_goals rfl

theorem extendedBy_of_tokens {tokens : List Token} (hDepth : options.cacheDepth ≠ .automatic)
    (hOk : parse options namespaces doc = .ok x) (hOk' : parse options namespaces (doc ++ more) = .ok y)
    (hTokens : y.tokens.toList = x.tokens.toList ++ tokens) (hPlain : ∀ t ∈ tokens, t.kind ≠ .startTag)
    (hEncoding : y.encoding = x.encoding) : x.ExtendedBy y := by
  obtain ⟨hCache, hRoot, hMaxDepth⟩ := told_of_parseRange hOk
  obtain ⟨hCache', hRoot', hMaxDepth'⟩ := told_of_parseRange hOk'
  rw [levels_of_ne hDepth doc.size, hTokens] at hCache' hRoot'
  obtain ⟨written, hDraft⟩ := @Draft.exists_ofTokens_append (options.cacheDepth.levels doc.size) x.tokens.toList _ hPlain
  rw [hDraft] at hCache' hRoot'
  refine ⟨hTokens ▸ List.prefix_append _ _, hRoot'.trans hRoot.symm, ?_, hEncoding, hCache'.trans hCache.symm⟩
  rw [hMaxDepth', hMaxDepth, hTokens, Token.deepest_append hPlain]

theorem lexes_append {detected : Detected} (options : Options)
    (hDetect : detect (doc ++ more) 0 (0 + doc.size) namespaces = .ok detected)
    (hDetect' : detect doc 0 (0 + doc.size) namespaces = .ok detected) :
    (Overlay.ofRange (doc ++ more) 0 doc.size detected.encoding.unitSize).Outcome False
      (Overlay.ofRange (doc ++ more) 0 doc.size detected.encoding.unitSize).Lexers Eq
      (Lex.run .start (.atRange options namespaces detected (doc ++ more) 0 doc.size))
      (Lex.run .start (.atRange options namespaces detected doc 0 doc.size)) := by
  have hLexers := Overlay.lexers_atRange options hDetect (extract_append_left.symm ▸ hDetect')
  rw [extract_append_left] at hLexers
  exact Overlay.lexes_run .start _ _ hLexers

theorem ends_append {detected : Detected} (hDepth : options.cacheDepth ≠ .automatic)
    (hDetect : detect (doc ++ more) 0 (0 + (doc ++ more).size) namespaces = .ok detected) :
    Variation.extent.Ends (Lex.run .start (.atRange options namespaces detected (doc ++ more) 0 doc.size))
      (Lex.run .start (.atRange options namespaces detected (doc ++ more) 0 (doc ++ more).size)) := by
  have hSettings : Variation.extent.Settings options options namespaces namespaces doc.size (doc ++ more).size :=
    { levels_eq := levels_of_ne hDepth _ _
      length_le := by
        rw [ByteArray.size_append]
        exact Nat.le_add_right _ _
      length_eq := fun h => absurd rfl h
      namespaces_eq := fun _ => rfl
      namespaces_off := nofun
      whitespace_eq := fun _ => rfl
      whitespace_on := nofun }
  exact Variation.ends_start (hSettings.lexers (detect_eq_ok_iff.mp hDetect).2.2)

/-- What the whole holds after the first part adds tokens that open no element. -/
theorem exists_tokens_of_ends {r : EStateM.Result Fault Lexer Unit} {s u : Lexer}
    (hEnds : Variation.extent.Ends (.ok () s) r) (hRun : r = .ok () u) : u.cursor.encoding = s.cursor.encoding ∧
      ∃ tokens, u.tokens = s.tokens ++ tokens ∧ ∀ t ∈ tokens, t.kind ≠ .startTag := by
  obtain ⟨-, c, s', t, cursor, hLexers, hMoved, hShort, hLong⟩ | hBoth := hEnds
  · obtain rfl : s = { s' with cursor } := (EStateM.Result.ok.inj hShort).2
    obtain ⟨hEncoding, tokens, hTokens, hPlain⟩ :=
      Lex.exists_more_of_completes_epilog ⟨u, hLong.symm.trans hRun, rfl⟩
    have hDraft : t.tokens = s'.tokens := congrArg (·.tokens.toList) (hLexers.draft_eq nofun).2
    exact ⟨hEncoding.trans (hLexers.encoding_eq.trans hMoved.encoding_eq.symm), tokens, hDraft ▸ hTokens, hPlain⟩
  · subst hRun
    obtain ⟨c, hLexers⟩ := hBoth
    have hDraft : u.tokens = s.tokens := congrArg (·.tokens.toList) (hLexers.draft_eq nofun).2
    exact ⟨hLexers.encoding_eq, [], by rw [hDraft, List.append_nil], nofun⟩

/-- A document whose first part holds a fault holds it as well. -/
theorem failure_of_ends {r : EStateM.Result Fault Lexer Unit} {s : Lexer} {fault : Fault}
    (hEnds : Variation.extent.Ends (.error fault s) r) (hFinished : ¬fault.IsUnfinished)
    (hPlace : fault.offset?.getD s.cursor.last ≤ s.cursor.stop) :
    ∃ t, r = .error fault t ∧ t.failure fault = s.failure fault := by
  obtain ⟨-, c, s', t, cursor, -, -, hShort, -⟩ | hBoth := hEnds
  · cases hShort
  · cases r with
    | ok u t => exact absurd hBoth hFinished
    | error fault' t =>
      obtain ⟨rfl, hCursors⟩ := hBoth.resolve_left hFinished
      exact ⟨t, rfl, Lexer.failure_longer hCursors hPlace⟩

section
variable {detected : Detected} (hDepth : options.cacheDepth ≠ .automatic)
  (hInner : detect doc 0 (0 + doc.size) namespaces = .ok detected)
  (hOuter : detect (doc ++ more) 0 (0 + doc.size) namespaces = .ok detected)
  (hDetect : detect (doc ++ more) 0 (0 + (doc ++ more).size) namespaces = .ok detected)
include hDepth hInner hOuter hDetect

theorem failure_append {failure : Failure} (hError : parse options namespaces doc = .error failure)
    (hFinished : ¬failure.fault.IsUnfinished) :
    ∃ failure', parse options namespaces (doc ++ more) = .error failure' ∧ failure'.fault.kind = failure.fault.kind ∧
      failure'.fault.message = failure.fault.message ∧ failure'.position = failure.position := by
  have hFirst := @parseRange_of_detected options _ _ _ _ _ (Nat.le_of_eq (Nat.zero_add _)) hInner
  have hWhole := @parseRange_of_detected options _ _ _ _ _ (Nat.le_of_eq (Nat.zero_add _)) hDetect
  have hBoth := lexes_append options hOuter hInner
  have hEnds := @ends_append options _ _ _ _ hDepth hDetect
  cases hAlone : Lex.run .start (.atRange options namespaces detected doc 0 doc.size) with
  | ok _ s =>
    rw [hAlone] at hFirst
    exact absurd (hFirst.symm.trans hError) nofun
  | error fault s =>
    rw [hAlone] at hFirst hBoth
    obtain rfl := Except.error.inj (hFirst.symm.trans hError)
    cases hPart : Lex.run .start (.atRange options namespaces detected (doc ++ more) 0 doc.size) with
    | ok _ t =>
      rw [hPart] at hBoth
      exact hBoth.elim
    | error fault' t =>
      rw [hPart] at hBoth hEnds
      obtain ⟨hFaults, hLexers⟩ := hBoth.resolve_left id
      rw [s.fault_failure] at hFinished
      have hStays : ¬fault'.IsUnfinished := fun hUnfinished => hFinished (hFaults.isUnfinished hUnfinished)
      obtain ⟨u, hRun, hFailure⟩ := failure_of_ends hEnds hStays (hFaults.place_le hLexers)
      rw [hRun] at hWhole
      refine ⟨_, hWhole, ?_⟩
      rw [hFailure]
      exact Overlay.failure_eq hLexers hFaults

theorem extendedBy_append (hOk : parse options namespaces doc = .ok x)
    (hOk' : parse options namespaces (doc ++ more) = .ok y) : x.ExtendedBy y := by
  obtain ⟨_, s, hFound, hAlone, rfl⟩ := exists_run_of_parseRange hOk
  obtain ⟨_, u, hFound', hRun, rfl⟩ := exists_run_of_parseRange hOk'
  obtain rfl := Except.ok.inj (hInner.symm.trans hFound)
  obtain rfl := Except.ok.inj (hDetect.symm.trans hFound')
  have hBoth := lexes_append options hOuter hInner
  have hEnds := @ends_append options _ _ _ _ hDepth hDetect
  rw [hAlone] at hBoth
  cases hPart : Lex.run .start (.atRange options namespaces detected (doc ++ more) 0 doc.size) with
  | error fault t =>
    rw [hPart] at hBoth
    exact hBoth.elim
  | ok _ t =>
    rw [hPart] at hBoth hEnds
    obtain ⟨-, hLexers⟩ := hBoth
    obtain ⟨hEncoding, tokens, hTokens, hPlain⟩ := exists_tokens_of_ends hEnds hRun
    have hSame : t.tokens = s.tokens := congrArg Array.toList (hLexers.draft.tokens_eq (Nat.zero_div _))
    exact extendedBy_of_tokens hDepth hOk hOk' (hTokens.trans (congrArg (· ++ tokens) hSame)) hPlain
      (hEncoding.trans hLexers.cursor.encoding_eq)

end

/-- The first part of a document is not finished, or holds the fault that the whole is refused for, or is parsed
as the whole is. -/
theorem parse_append_cases (hHead : 4 ≤ doc.size) (hDepth : options.cacheDepth ≠ .automatic)
    (hSize : ∀ detected, Detected.ofHead (headBytes (doc ++ more) 0 (doc ++ more).size) = .ok detected →
      (doc ++ more).size < sizeLimit detected.encoding namespaces) :
    (∃ failure, parse options namespaces doc = .error failure ∧ failure.fault.IsUnfinished) ∨
    (∃ failure failure', parse options namespaces doc = .error failure ∧
      parse options namespaces (doc ++ more) = .error failure' ∧ failure'.fault.kind = failure.fault.kind ∧
      failure'.fault.message = failure.fault.message ∧ failure'.position = failure.position) ∨
    ∃ x, parse options namespaces doc = .ok x ∧
      ∀ y, parse options namespaces (doc ++ more) = .ok y → x.ExtendedBy y := by
  obtain ⟨hInner, hOuter⟩ := detect_append hHead hSize
  cases hDetect : detect (doc ++ more) 0 (0 + (doc ++ more).size) namespaces with
  | error cause =>
    have hFirst := @parseRange_of_undetected options _ _ _ _ _ (Nat.le_of_eq (Nat.zero_add _))
      ((hInner.trans hOuter).trans hDetect)
    have hWhole := @parseRange_of_undetected options _ _ _ _ _ (Nat.le_of_eq (Nat.zero_add _)) hDetect
    exact .inr (.inl ⟨_, _, hFirst, hWhole, rfl, rfl, rfl⟩)
  | ok detected =>
    rw [hDetect] at hOuter
    rw [hOuter] at hInner
    cases hFirst : parse options namespaces doc with
    | ok x => exact .inr (.inr ⟨x, rfl, fun y hOk => extendedBy_append hDepth hInner hOuter hDetect hFirst hOk⟩)
    | error failure =>
      by_cases hUnfinished : failure.fault.IsUnfinished
      · exact .inl ⟨failure, rfl, hUnfinished⟩
      · obtain ⟨failure', hWhole, hSame⟩ := failure_append hDepth hInner hOuter hDetect hFirst hUnfinished
        exact .inr (.inl ⟨failure, failure', rfl, hWhole, hSame⟩)

/-- A fault in the first part is the fault of the whole, unless it is that the part ends too soon. If both are
parsed, the whole adds tokens at the end; and the first part of what is parsed is parsed, or ends too soon. -/
theorem parse_append (hHead : 4 ≤ doc.size) (hDepth : options.cacheDepth ≠ .automatic)
    (hSize : ∀ detected, Detected.ofHead (headBytes (doc ++ more) 0 (doc ++ more).size) = .ok detected →
      (doc ++ more).size < sizeLimit detected.encoding namespaces) :
    (∀ failure, parse options namespaces doc = .error failure → ¬failure.fault.IsUnfinished →
      ∃ failure', parse options namespaces (doc ++ more) = .error failure' ∧
        failure'.fault.kind = failure.fault.kind ∧ failure'.fault.message = failure.fault.message ∧
        failure'.position = failure.position) ∧
    (∀ x y, parse options namespaces doc = .ok x → parse options namespaces (doc ++ more) = .ok y →
      x.ExtendedBy y) ∧
    ∀ y, parse options namespaces (doc ++ more) = .ok y → (∃ x, parse options namespaces doc = .ok x) ∨
      ∃ failure, parse options namespaces doc = .error failure ∧ failure.fault.IsUnfinished := by
  obtain ⟨failure, hError, hUnfinished⟩ | ⟨failure, failure', hError, hError', hSame⟩ | ⟨x, hOk, hExtended⟩ :=
    parse_append_cases hHead hDepth hSize
  · refine ⟨fun failure' hError' hFinished => ?_, fun x y hOk => ?_, fun y _ => .inr ⟨failure, hError, hUnfinished⟩⟩
    · obtain rfl := Except.error.inj (hError.symm.trans hError')
      exact absurd hUnfinished hFinished
    · exact absurd (hError.symm.trans hOk) nofun
  · refine ⟨fun other hOther _ => ?_, fun x y hOk => ?_, fun y hOk => ?_⟩
    · obtain rfl := Except.error.inj (hError.symm.trans hOther)
      exact ⟨failure', hError', hSame⟩
    · exact absurd (hError.symm.trans hOk) nofun
    · exact absurd (hError'.symm.trans hOk) nofun
  · refine ⟨fun failure hError => ?_, fun x' y hOk' hWhole => ?_, fun _ _ => .inl ⟨x, hOk⟩⟩
    · exact absurd (hOk.symm.trans hError) nofun
    · obtain rfl := Except.ok.inj (hOk.symm.trans hOk')
      exact hExtended y hWhole

end

/-- `<a>b</a>` -/
def note : ByteArray :=
  ⟨#[0x3C, 0x61, 0x3E, 0x62, 0x3C, 0x2F, 0x61, 0x3E]⟩

/-- `<!--c-->` -/
def remark : ByteArray :=
  ⟨#[0x3C, 0x21, 0x2D, 0x2D, 0x63, 0x2D, 0x2D, 0x3E]⟩

def noteIndex : Index where
  buffer := note
  docOffset := 0
  docLength := 8
  encoding := .utf8
  namespaces := false
  maxDepth := 0
  root := some 1
  tokens := #[⟨.document, -1, 0, 0⟩, ⟨.startTag, 0, 1, 1⟩, ⟨.characterData, 0, 3, 1⟩]
  cache := ⟨#[#[], #[]], #[]⟩

def remarkedIndex : Index :=
  { noteIndex with
    buffer := note ++ remark
    docLength := 16
    tokens := #[⟨.document, -1, 0, 0⟩, ⟨.startTag, 0, 1, 1⟩, ⟨.characterData, 0, 3, 1⟩, ⟨.comment, -1, 12, 1⟩] }

theorem parse_note : parse ⟨false, .shallow⟩ false note = .ok noteIndex :=
  @parseRange_of_runWithin _ _ _ _ _ 4 ⟨.utf8, .none⟩ _ (by decide) rfl (by with_unfolding_all rfl)

theorem parse_remarked : parse ⟨false, .shallow⟩ false (note ++ remark) = .ok remarkedIndex :=
  @parseRange_of_runWithin _ _ _ _ _ 6 ⟨.utf8, .none⟩ _ (by decide) rfl (by decide +kernel)

theorem parse_append_remark : parse ⟨false, .shallow⟩ false note = .ok noteIndex ∧
    parse ⟨false, .shallow⟩ false (note ++ remark) = .ok remarkedIndex ∧ noteIndex.ExtendedBy remarkedIndex := by
  have hSize : ∀ detected, Detected.ofHead (headBytes (note ++ remark) 0 (note ++ remark).size) = .ok detected →
      (note ++ remark).size < sizeLimit detected.encoding false := by
    intro detected hFound
    have hDetected : Detected.ofHead (headBytes (note ++ remark) 0 (note ++ remark).size) = .ok ⟨.utf8, .none⟩ := rfl
    obtain rfl : ⟨.utf8, .none⟩ = detected := Except.ok.inj (hDetected.symm.trans hFound)
    decide +kernel
  exact ⟨parse_note, parse_remarked, (parse_append (by decide) (by decide) hSize).2.1 _ _ parse_note parse_remarked⟩

end XmlIndex
