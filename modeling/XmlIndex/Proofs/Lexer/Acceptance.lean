import XmlIndex.Proofs.Lexer.Scoping

/-! # Trees in their environments

With namespaces, the content of an element is read just if all its tags are qualified in the environments
that pass down to them. The induction is on the content; what comes after it is left open.
-/
namespace XmlIndex
set_option autoImplicit false
open Grammar XmlIndex.Lex

namespace Cursor
variable {c : Cursor} {text other space space' : Chars} {ch d : CodePoint}

/-- A cursor reads one run up to the bracket after it. -/
theorem space_eq (hText : c.Reads (space ++ [ch])) (hOther : c.Reads (space' ++ [d])) (hSpace : IsSpace space)
    (hSpace' : IsSpace space') (hLast : CodePoint.isSpace ch = false) (hLast' : CodePoint.isSpace d = false) :
    space = space' := by
  have hFirst := Scan.nextAfterSpace_eq_ok_iff.mpr ⟨space, hText, hSpace, hLast, rfl⟩
  have hSecond := Scan.nextAfterSpace_eq_ok_iff.mpr ⟨space', hOther, hSpace', hLast', rfl⟩
  have hSame := hFirst.symm.trans hSecond
  rw [EStateM.Result.ok.injEq] at hSame
  have hSize := congrArg Cursor.offset hSame.2
  rw [Cursor.offset_advance, Cursor.offset_advance, Nat.add_left_cancel_iff] at hSize
  exact (List.append_inj' (hText.eq_of_size hOther hSize) rfl).1

end Cursor

namespace Grammar
variable {run space : Chars} {tag : Tag} {inside rest : Content} {m : Markup}

-- The bracket after a part belongs to the run that ends with it.
theorem Content.text_markup : (Content.markup run m rest).text ++ [CodePoint.lessThan] =
    (run ++ [CodePoint.lessThan]) ++ (m.inner ++ (rest.text ++ [CodePoint.lessThan])) := by
  simp [Content.text]

theorem Content.text_empty : (Content.empty run tag rest).text ++ [CodePoint.lessThan] =
    (run ++ [CodePoint.lessThan]) ++ ((tag.text ++ [CodePoint.slash, CodePoint.greaterThan]) ++
      (rest.text ++ [CodePoint.lessThan])) := by
  simp [Content.text]

theorem Content.text_element : (Content.element run tag inside space rest).text ++ [CodePoint.lessThan] =
    (run ++ [CodePoint.lessThan]) ++ ((tag.text ++ [CodePoint.greaterThan]) ++ ((inside.text ++ [CodePoint.lessThan]) ++
      (endTag tag.name space ++ (rest.text ++ [CodePoint.lessThan])))) := by
  simp [Content.text]

theorem Root.text_some : (Root.mk tag (some (inside, space))).text =
    (tag.text ++ [CodePoint.greaterThan]) ++ ((inside.text ++ [CodePoint.lessThan]) ++ endTag tag.name space) := by
  simp [Root.text, Root.bodyText]

theorem Root.qualified_none : (Root.mk tag none).Qualified ↔ tag.Qualified [] :=
  ⟨fun h => h.tag, fun h => ⟨h, nofun⟩⟩

theorem Root.qualified_some : (Root.mk tag (some (inside, space))).Qualified ↔
    tag.Qualified [] ∧ inside.Qualified (tag.scope []) := by
  refine ⟨fun h => ⟨h.tag, h.body inside space rfl⟩, fun h => ⟨h.1, ?_⟩⟩
  rintro _ _ ⟨⟩
  exact h.2

end Grammar

namespace Lex
open Lexer
variable {s : Lexer} {c : Cursor} {names : List Chars} {outer : List Environment} {scope : Environment}
  {name text space : Chars} {p : Prop}

theorem run_eq_of_reads (hOpen : s.openTags ≠ []) {other : Chars} (hText : s.cursor.Reads (text ++ [CodePoint.lessThan]))
    (hOther : s.cursor.Reads (other ++ [CodePoint.lessThan])) (hRun : IsRun text) (hRun' : IsRun other) :
    text = other := by
  have hFirst := (afterMarkup_eq_ok_iff hOpen).mpr ⟨rfl, text, hText, hRun, rfl⟩
  have hSecond := (afterMarkup_eq_ok_iff hOpen).mpr ⟨rfl, other, hOther, hRun', rfl⟩
  have hSame := hFirst.symm.trans hSecond
  rw [EStateM.Result.ok.injEq] at hSame
  have hSize := congrArg (fun t : Lexer => t.cursor.offset) hSame.2
  simp only [runPast, Lexer.cursor_add, Lexer.cursor_past, Cursor.offset_advance, Nat.add_left_cancel_iff] at hSize
  exact (List.append_inj' (hText.eq_of_size hOther hSize) rfl).1

theorem within_runPast {whole : Bool} (hWithin : Within c names outer s) :
    Within (c.advance (text ++ [CodePoint.lessThan])) names outer (runPast s whole text) :=
  ⟨congrArg (Cursor.advance · _) hWithin.cursor, hWithin.on, hWithin.opened.past, hWithin.scopes.advance,
    hWithin.length⟩

inductive Begins : Lex Phase → Prop where
  | afterMarkup : Begins afterMarkup
  | content (opened : Bool) : Begins (content opened)

theorem hinges_run {more : Lex Phase} {rest : Chars} (hMore : Begins more) (hRun : IsRun text)
    (hText : c.Reads (text ++ [CodePoint.lessThan]))
    (hNext : (c.advance (text ++ [CodePoint.lessThan])).Reads rest) (hNonempty : rest ≠ [])
    (hRest : Hinges (Within (c.advance (text ++ [CodePoint.lessThan])) (name :: names) outer) [] (run .markup) p) :
    Hinges (Within c (name :: names) outer) [] (more >>= run) p := by
  intro s hWithin
  obtain rfl := hWithin.cursor
  obtain ⟨ch, others, rfl⟩ := List.exists_cons_of_ne_nil hNonempty
  have hOpen := hWithin.opened.openTags_ne_nil
  cases hMore with
  | afterMarkup =>
    rw [Lexer.past_nil, succeeds_of_ok ((afterMarkup_eq_ok_iff hOpen).mpr ⟨rfl, text, hText, hRun, rfl⟩)]
    exact hRest _ (within_runPast hWithin)
  | content opened =>
    rw [← hRest (runPast s (opened && ch == CodePoint.slash) text) (within_runPast hWithin)]
    refine exists_congr fun r => (completes_content_iff hOpen).trans ?_
    constructor
    · rintro ⟨other, hRun', hOther, d, hHead, hOk⟩
      obtain rfl := run_eq_of_reads hOpen hText hOther hRun hRun'
      obtain rfl := hHead.head_eq hNext
      exact hOk
    · exact fun hOk => ⟨text, hRun, hText, ch, (Cursor.reads_cons.mp hNext).1, hOk⟩

theorem succeeds_markup_after {m : Markup} (hWell : m.WellFormed) (hFits : m.Fits s.cursor.encoding)
    (hAllows : s.Allows m) (hReads : s.cursor.Reads m.inner) :
    Succeeds (run .markup) s ↔ Succeeds (resume >>= run) (s.after m) := by
  have hFirst : ∀ {ch}, m.inner.head? = some ch → s.cursor.Reads [ch] := by
    intro ch hHead
    obtain ⟨rest, hInner⟩ := List.head?_eq_some_iff.mp hHead
    rw [hInner] at hReads
    exact (Cursor.reads_cons.mp hReads).1
  rcases head?_inner m with hHead | hHead
  · have hOk := (instruction_past_eq_ok_iff (u := ()) (hFirst hHead)).mpr
      ⟨m, hHead, hWell, hFits, hAllows, hReads, rfl⟩
    rw [succeeds_markup (hFirst hHead)]
    change Succeeds ((instruction >>= fun _ => resume) >>= run) _ ↔ _
    rw [bind_assoc, succeeds_of_ok hOk]
  · have hOk := (declared_eq_ok_iff (u := ()) (hFirst hHead)).mpr ⟨m, hHead, hWell, hFits, hAllows, hReads, rfl⟩
    rw [succeeds_markup (hFirst hHead)]
    change Succeeds ((declared >>= fun _ => resume) >>= run) _ ↔ _
    rw [bind_assoc, succeeds_of_ok hOk]

theorem within_after {m : Markup} (hWithin : Within c names outer s) :
    Within (c.advance m.inner) names outer (s.after m) :=
  ⟨congrArg (Cursor.advance · _) hWithin.cursor, hWithin.on, hWithin.opened.past, hWithin.scopes.advance,
    hWithin.length⟩

theorem hinges_markup {m : Markup} (hWell : m.WellFormed) (hFits : m.Fits c.encoding)
    (hKind : m.isDocumentType = false) (hReads : c.Reads m.inner)
    (hRest : Hinges (Within (c.advance m.inner) (name :: names) outer) [] (afterMarkup >>= run) p) :
    Hinges (Within c (name :: names) outer) [] (run .markup) p := by
  intro s hWithin
  obtain rfl := hWithin.cursor
  have hOpen := hWithin.opened.openTags_ne_nil
  have hAllows : s.Allows m := ⟨fun _ => hOpen, fun h => by rw [hKind] at h; cases h⟩
  have hInside : outsideRoot (s.after m) = .ok false (s.after m) := by
    rw [← List.isEmpty_eq_false_iff.mpr hOpen]
    rfl
  rw [Lexer.past_nil, succeeds_markup_after hWell hFits hAllows hReads, resume, bind_assoc, succeeds_of_ok hInside]
  exact hRest _ (within_after hWithin)

theorem succeeds_endTag (hOpened : s.Opened (name :: names)) (hSpace : IsSpace space)
    (hReads : s.cursor.Reads (name ++ (space ++ [CodePoint.greaterThan]))) : Succeeds (endTag >>= run) s ↔
      Succeeds (leaving names afterMarkup >>= run) ((popped s).past (name ++ (space ++ [CodePoint.greaterThan]))) := by
  have hEmpty : ((popped s).past (name ++ (space ++ [CodePoint.greaterThan]))).openTags.isEmpty = names.isEmpty :=
    (opened_popped hOpened).isEmpty_eq
  refine exists_congr fun r => ?_
  simp only [completes_bind, endTag_eq_ok_iff hOpened, leaving, ← hEmpty]
  constructor
  · rintro ⟨phase, s', ⟨other, hOther, hText, hOk⟩, hRest⟩
    obtain rfl := Cursor.space_eq (Cursor.reads_append.mp hReads).2 (Cursor.reads_append.mp hText).2 hSpace hOther
      (by decide) (by decide)
    exact ⟨phase, s', hOk, hRest⟩
  · rintro ⟨phase, s', hOk, hRest⟩
    exact ⟨phase, s', ⟨space, hSpace, hReads, hOk⟩, hRest⟩

/-- An end tag leaves the environment of its element. -/
theorem hinges_endTag (hSpace : IsSpace space) (hReads : c.Reads (Grammar.endTag name space))
    (hRest : Hinges (Within (c.advance (Grammar.endTag name space)) names outer) []
      (leaving names afterMarkup >>= run) p) :
    Hinges (Within c (name :: names) (scope :: outer)) [] (run .markup) p := by
  intro s hWithin
  obtain ⟨hCursor, hOn, hOpened, hScopes, hLength⟩ : Within (c.advance (Grammar.endTag name space)) (name :: names)
    (scope :: outer) (s.past (Grammar.endTag name space)) := hWithin.past
  obtain rfl := hWithin.cursor
  obtain ⟨hSlash, hName⟩ := Cursor.reads_cons.mp hReads
  rw [Lexer.past_nil, succeeds_markup hSlash,
    show markupFrom s.cursor.offset CodePoint.slash = Lex.endTag from rfl]
  refine (succeeds_endTag (s := s.past [CodePoint.slash]) hWithin.opened.past hSpace hName).trans ?_
  exact hRest ((popped s).past (Grammar.endTag name space))
    ⟨hCursor, hOn, opened_popped hOpened, hScopes.leave, Nat.succ.inj hLength⟩

theorem hinges_content {x : Content} {more : Lex Phase} {others : Chars} (hWell : x.WellFormed)
    (hFits : x.Fits c.encoding (names.length + 1)) (hMore : Begins more)
    (hReads : c.Reads (x.text ++ [CodePoint.lessThan]))
    (hNext : (c.advance (x.text ++ [CodePoint.lessThan])).Reads others) (hNonempty : others ≠ [])
    (hRest : Hinges (Within (c.advance (x.text ++ [CodePoint.lessThan])) (name :: names) (scope :: outer)) []
      (run .markup) p) :
    Hinges (Within c (name :: names) (scope :: outer)) [] (more >>= run) (x.Qualified scope ∧ p) := by
  induction x generalizing c name names scope outer more others p with
  | last run =>
    rw [Content.Qualified, true_and]
    exact hinges_run hMore hWell hReads hNext hNonempty hRest
  | markup run m rest ih =>
    obtain ⟨hRun, hm, hKind, hOthers⟩ := hWell
    rw [Content.text_markup] at hReads hNext hRest
    rw [Cursor.advance_append, Cursor.advance_append] at hNext hRest
    obtain ⟨hText, hParts⟩ := Cursor.reads_append.mp hReads
    obtain ⟨hInner, hAfter⟩ := Cursor.reads_append.mp hParts
    refine hinges_run hMore hRun hText hParts (by simp [inner_ne_nil]) (hinges_markup hm ?_ hKind hInner
      (ih hOthers ?_ .afterMarkup hAfter hNext hNonempty hRest))
    · simpa only [Cursor.encoding_advance] using hFits.1
    · simpa only [Cursor.encoding_advance] using hFits.2
  | empty run tag rest ih =>
    obtain ⟨hRun, hTag, hOthers⟩ := hWell
    obtain ⟨hDepth, hTagFits, hRestFits⟩ := hFits
    rw [Content.text_empty] at hReads hNext hRest
    rw [Cursor.advance_append, Cursor.advance_append] at hNext hRest
    obtain ⟨hText, hParts⟩ := Cursor.reads_append.mp hReads
    obtain ⟨hTagText, hAfter⟩ := Cursor.reads_append.mp hParts
    rw [Content.Qualified, and_assoc]
    refine hinges_run hMore hRun hText hParts (by simp) (hinges_emptyTag hTag ?_ hDepth hTagText
      (ih hOthers ?_ (.content false) hAfter hNext hNonempty hRest))
    · simpa only [Cursor.encoding_advance] using hTagFits
    · simpa only [Cursor.encoding_advance] using hRestFits
  | element run tag inside space rest ihInside ihRest =>
    obtain ⟨hRun, hTag, hInside, hSpace, hOthers⟩ := hWell
    obtain ⟨hDepth, hTagFits, hInsideFits, hRestFits⟩ := hFits
    rw [Content.text_element] at hReads hNext hRest
    rw [Cursor.advance_append, Cursor.advance_append, Cursor.advance_append, Cursor.advance_append] at hNext hRest
    obtain ⟨hText, hParts⟩ := Cursor.reads_append.mp hReads
    obtain ⟨hTagText, hBody⟩ := Cursor.reads_append.mp hParts
    obtain ⟨hInsideText, hEnd⟩ := Cursor.reads_append.mp hBody
    obtain ⟨hEndText, hAfter⟩ := Cursor.reads_append.mp hEnd
    rw [Content.Qualified, and_assoc, and_assoc]
    refine hinges_run hMore hRun hText hParts (by simp) (hinges_openTag hTag ?_ hDepth hTagText
      (ihInside hInside ?_ (.content true) hInsideText hEnd (List.cons_ne_nil _ _) (hinges_endTag hSpace hEndText
        (ihRest hOthers ?_ .afterMarkup hAfter hNext hNonempty hRest))))
    all_goals simpa only [Cursor.encoding_advance]

theorem hinges_root {r : Root} (hWell : r.WellFormed) (hFits : r.Fits c.encoding) (hReads : c.Reads r.text)
    (hRest : Hinges (Within (c.advance r.text) [] []) [] (run .epilog) p) :
    Hinges (Within c [] []) [] (run .markup) (r.Qualified ∧ p) := by
  obtain ⟨tag, body⟩ := r
  cases body with
  | none =>
    rw [Root.qualified_none]
    exact hinges_emptyTag hWell.tag hFits.tag (Nat.zero_le _) hReads hRest
  | some body =>
    obtain ⟨inside, space⟩ := body
    obtain ⟨hInside, hSpace⟩ := hWell.body inside space rfl
    rw [Root.text_some] at hReads hRest
    rw [Cursor.advance_append, Cursor.advance_append] at hRest
    obtain ⟨hTagText, hBody⟩ := Cursor.reads_append.mp hReads
    obtain ⟨hInsideText, hEndText⟩ := Cursor.reads_append.mp hBody
    rw [Root.qualified_some, and_assoc]
    refine hinges_openTag hWell.tag hFits.tag (Nat.zero_le _) hTagText (hinges_content hInside ?_ (.content true)
      hInsideText hEndText (List.cons_ne_nil _ _) (hinges_endTag hSpace hEndText hRest))
    rw [Cursor.encoding_advance]
    exact hFits.body inside space rfl

theorem hinges_epilog {ep : Epilog} (hWell : ep.WellFormed) (hFits : ∀ item ∈ ep.items, item.2.Fits c.encoding)
    (hReads : c.Reads ep.text) (hEnds : (c.advance ep.text).Ends) :
    Hinges (Within c [] []) [] (run .epilog) True := by
  obtain ⟨items, space⟩ := ep
  intro s hWithin
  rw [iff_true]
  induction items generalizing c s with
  | nil =>
    obtain rfl := hWithin.cursor
    exact ⟨_, completes_epilog_iff.mpr ⟨space, hWell.space, .inl ⟨hReads, hEnds, rfl⟩⟩⟩
  | cons item rest ih =>
    obtain ⟨before, m⟩ := item
    obtain ⟨⟨hBefore, hm, hMisc⟩, hOthers⟩ := List.forall_mem_cons.mp hWell.items
    obtain ⟨hmFits, hRestFits⟩ := List.forall_mem_cons.mp hFits
    have hText : Epilog.text ⟨(before, m) :: rest, space⟩ =
        (before ++ CodePoint.lessThan :: m.inner) ++ Epilog.text ⟨rest, space⟩ := by
      simp [Epilog.text, Epilog.itemsText]
    rw [hText, Cursor.reads_append] at hReads
    rw [hText, Cursor.advance_append] at hEnds
    have hNext : Within (c.advance (before ++ CodePoint.lessThan :: m.inner)) [] []
        ((s.past (before ++ [CodePoint.lessThan])).after m) := by
      have hBracket : Within (c.advance (before ++ [CodePoint.lessThan])) [] [] (s.past (before ++ [CodePoint.lessThan])) :=
        hWithin.past
      have hThere := within_after (m := m) hBracket
      rwa [← Cursor.advance_append, List.append_assoc] at hThere
    obtain ⟨r, hCompletes⟩ := ih ⟨hOthers, hWell.space⟩ (by rw [Cursor.encoding_advance]; exact hRestFits) hReads.2
      hEnds _ hNext
    obtain rfl := hWithin.cursor
    exact ⟨r, completes_epilog_iff.mpr ⟨before, hBefore, .inr ⟨m, hm, hMisc, hmFits, hReads.1, hCompletes⟩⟩⟩

/-- Markup before the root is read as it is without namespaces. -/
theorem hinges_prolog {items : List (Markup × Chars)} {doctype : Bool}
    (hWell : ∀ item ∈ items, item.1.WellFormed ∧ item.1.isSection = false ∧ IsSpace item.2)
    (hFits : ∀ item ∈ items, item.1.Fits c.encoding)
    (hSingle : (items.filter (·.1.isDocumentType)).length + doctype.toNat ≤ 1) (hReads : c.Reads (prologText items))
    (hRest : Hinges (Within (c.advance (prologText items)) [] []) [] (run .markup) p) :
    Hinges (fun s => Within c [] [] s ∧ s.hasDoctype = doctype) [] (run .markup) p := by
  rintro s ⟨hWithin, hDoctype⟩
  induction items generalizing c s doctype with
  | nil => exact hRest s hWithin
  | cons item rest ih =>
    obtain ⟨m, space⟩ := item
    obtain ⟨⟨hm, hSection, hSpace⟩, hOthers⟩ := List.forall_mem_cons.mp hWell
    obtain ⟨hmFits, hRestFits⟩ := List.forall_mem_cons.mp hFits
    have hText : prologText ((m, space) :: rest) = (m.inner ++ (space ++ [CodePoint.lessThan])) ++ prologText rest :=
      List.flatMap_cons
    rw [hText, Cursor.reads_append] at hReads
    rw [hText, Cursor.advance_append] at hRest
    have hOutside : s.openTags = [] := List.forall₂_nil_right_iff.mp hWithin.opened
    obtain ⟨hOnly, hOthersSingle⟩ := single_cons_iff.mp hSingle
    have hAllows : s.Allows m := by
      refine ⟨fun h => ?_, fun h => ⟨hOutside, ?_⟩⟩
      · rw [hSection] at h
        cases h
      · rwa [h, Bool.and_true, ← hDoctype] at hOnly
    obtain rfl := hWithin.cursor
    obtain ⟨hInner, hSpaceText⟩ := Cursor.reads_append.mp hReads.1
    have hBetween : betweenMarkup (s.after m) = .ok .markup ((s.after m).past (space ++ [CodePoint.lessThan])) := by
      rw [betweenMarkup, bind_of_ok (read_nextAfterSpace_eq_ok_iff.mpr ⟨space, hSpaceText, hSpace, by decide, rfl⟩)]
      rfl
    have hOutsideRoot : outsideRoot (s.after m) = .ok true (s.after m) := by
      rw [show true = s.openTags.isEmpty by rw [hOutside]; rfl]
      rfl
    have hThere : Within ((s.cursor.advance m.inner).advance (space ++ [CodePoint.lessThan])) [] []
        ((s.after m).past (space ++ [CodePoint.lessThan])) := (within_after hWithin).past
    rw [← Cursor.advance_append] at hThere
    rw [Lexer.past_nil, succeeds_markup_after hm hmFits hAllows hInner, resume, bind_assoc, succeeds_of_ok hOutsideRoot,
      if_pos rfl, succeeds_of_ok hBetween]
    refine ih hOthers ?_ hOthersSingle hReads.2 hRest _ hThere ?_
    · rw [Cursor.encoding_advance]
      exact hRestFits
    · exact congrArg (· || m.isDocumentType) hDoctype

/-- With namespaces, a document is read just if its root is qualified. -/
theorem hinges_body {d : Document} (hWell : d.BodyWellFormed) (hFits : d.Fits c.encoding)
    (hReads : c.Reads (prologText d.prolog ++ (d.root.text ++ d.epilog.text)))
    (hEnds : (c.advance (prologText d.prolog ++ (d.root.text ++ d.epilog.text))).Ends) :
    Hinges (fun s => Within c [] [] s ∧ s.hasDoctype = false) [] (run .markup) d.root.Qualified := by
  obtain ⟨hProlog, hOthers⟩ := Cursor.reads_append.mp hReads
  obtain ⟨hRoot, hEpilog⟩ := Cursor.reads_append.mp hOthers
  rw [Cursor.advance_append, Cursor.advance_append] at hEnds
  refine hinges_prolog hWell.prolog.wellFormed hFits.prolog hWell.prolog.single hProlog ?_
  rw [← and_true d.root.Qualified]
  refine hinges_root hWell.root ?_ hRoot (hinges_epilog hWell.epilog ?_ hEpilog hEnds)
  · rw [Cursor.encoding_advance]
    exact hFits.root
  · rw [Cursor.encoding_advance, Cursor.encoding_advance]
    exact hFits.epilog

end Lex
end XmlIndex
