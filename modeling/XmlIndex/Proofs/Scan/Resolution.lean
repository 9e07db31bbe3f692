import XmlIndex.Proofs.Grammar.Qualification
import XmlIndex.Proofs.Scan.References
import XmlIndex.Proofs.Scan.Spans
import XmlIndex.Proofs.Translation.Namespaces

/-! # Comparing what is resolved

Namespace names are compared character by character, references being resolved on the way. Where both
are read as texts that resolve, the comparison never fails, and the answer is whether they resolve to
the same text.
-/
namespace XmlIndex
set_option autoImplicit false
open Grammar

namespace Encoding
variable {e : Encoding} {text : Chars}

theorem size_pos (hNonempty : text ≠ []) : 0 < e.size text := by
  obtain ⟨ch, rest, rfl⟩ := List.exists_cons_of_ne_nil hNonempty
  have hWidth := e.width_pos ch
  rw [size_cons]
  omega

theorem size_eq_zero_iff : e.size text = 0 ↔ text = [] := by
  refine ⟨fun h => ?_, fun h => h ▸ rfl⟩
  by_contra hNonempty
  exact absurd h (size_pos hNonempty).ne'

end Encoding

namespace Automaton
variable {σ α : Type} {machine : Automaton σ α} {e : Encoding} {state : σ} {place : Nat}
  {text : List CodePoint} {a b : α}

theorem accepts_unique (hAccepts : machine.Accepts e state place text a)
    (hOther : machine.Accepts e state place text b) : a = b := by
  induction text generalizing state place with
  | nil => exact (not_accepts_nil hAccepts).elim
  | cons ch rest ih =>
    cases hStep : machine state place ch with
    | more state' =>
      rw [accepts_of_more hStep] at hAccepts hOther
      exact ih hAccepts hOther
    | done result =>
      rw [accepts_of_done hStep] at hAccepts hOther
      exact hAccepts.2.trans hOther.2.symm
    | reject fault =>
      rw [accepts_of_reject hStep] at hAccepts
      exact hAccepts.elim

end Automaton

namespace Grammar
variable {text body resolved resolved' : Chars} {ch c d : CodePoint} {plain : CodePoint → Bool}

/-- Where a character comes first, a text is cut in one way. -/
theorem append_cons_inj {found other rest rest' : Chars} (hFound : ch ∉ found) (hOther : ch ∉ other)
    (hSame : found ++ ch :: rest = other ++ ch :: rest') : found = other ∧ rest = rest' := by
  induction found generalizing other with
  | nil =>
    cases other with
    | nil => exact ⟨rfl, (List.cons.inj hSame).2⟩
    | cons d other => exact absurd ((List.cons.inj hSame).1 ▸ List.mem_cons_self) hOther
  | cons d found ih =>
    cases other with
    | nil => exact absurd ((List.cons.inj hSame).1 ▸ List.mem_cons_self) hFound
    | cons d' other =>
      obtain ⟨rfl, hRest⟩ := List.cons.inj hSame
      obtain ⟨rfl, rfl⟩ := ih (fun h => hFound (List.mem_cons_of_mem _ h))
        (fun h => hOther (List.mem_cons_of_mem _ h)) hRest
      exact ⟨rfl, rfl⟩

theorem Denotes.unique (hBody : Denotes body c) (hOther : Denotes body d) : c = d := by
  have hAccepts : ∀ {c : CodePoint}, Denotes body c →
      Reference.machine.Accepts .utf8 .start 0 (body ++ [CodePoint.semicolon]) c :=
    fun h => Reference.accepts_iff.mpr ⟨body, rfl, h⟩
  exact Automaton.accepts_unique (hAccepts hBody) (hAccepts hOther)

theorem Denotes.notMem (hBody : Denotes body c) : CodePoint.semicolon ∉ body := by
  intro hMem
  exact (Reference.isInner_of_denotes hBody _ hMem).notMem (by decide)

inductive Resolves.First : Chars → CodePoint → Prop where
  | char {ch : CodePoint} : ch ≠ CodePoint.ampersand → First [ch] ch
  | reference {body : Chars} {ch : CodePoint} : Denotes body ch →
      First (CodePoint.ampersand :: (body ++ [CodePoint.semicolon])) ch

theorem Resolves.First.ne_nil (hFirst : First text ch) : text ≠ [] := by
  cases hFirst <;> exact List.cons_ne_nil _ _

theorem Resolves.exists_first (hResolves : Resolves text (ch :: resolved)) :
    ∃ first rest, text = first ++ rest ∧ First first ch ∧ Resolves rest resolved := by
  cases hResolves with
  | char hOther hRest => exact ⟨[ch], _, rfl, .char hOther, hRest⟩
  | @reference body rest _ _ hBody hRest =>
    exact ⟨CodePoint.ampersand :: (body ++ [CodePoint.semicolon]), rest, by simp, .reference hBody, hRest⟩

@[simp] theorem resolves_nil_iff : Resolves text [] ↔ text = [] := by
  constructor
  · rintro ⟨⟩
    rfl
  · rintro rfl
    exact .nil

theorem Resolves.unique (hText : Resolves text resolved) (hOther : Resolves text resolved') :
    resolved = resolved' := by
  induction hText generalizing resolved' with
  | nil =>
    cases hOther
    rfl
  | char hPlain hRest ih =>
    cases hOther with
    | char _ hOther => rw [ih hOther]
    | reference => exact absurd rfl hPlain
  | @reference body rest resolved c hBody hRest ih =>
    generalize hSame : CodePoint.ampersand :: (body ++ CodePoint.semicolon :: rest) = text at hOther
    cases hOther with
    | nil => cases hSame
    | char hPlain => exact absurd (List.cons.inj hSame).1.symm hPlain
    | reference hBody' hRest' =>
      obtain ⟨rfl, rfl⟩ := append_cons_inj hBody.notMem hBody'.notMem (List.cons.inj hSame).2
      rw [hBody.unique hBody', ih hRest']

/-- What is escaped, whatever the plain characters, resolves. -/
theorem Escaped.exists_resolves (hEscaped : Escaped plain text)
    (hPlain : plain CodePoint.ampersand = false) : ∃ resolved, Resolves text resolved := by
  induction hEscaped with
  | nil => exact ⟨[], .nil⟩
  | @char ch rest hChar hRest ih =>
    obtain ⟨resolved, hResolved⟩ := ih
    refine ⟨ch :: resolved, .char ?_ hResolved⟩
    rintro rfl
    rw [hPlain] at hChar
    cases hChar
  | @reference body rest c hBody hRest ih =>
    obtain ⟨resolved, hResolved⟩ := ih
    exact ⟨c :: resolved, .reference hBody hResolved⟩

theorem exists_resolves_of_isValueChar {quote : CodePoint} (hValue : Escaped (isValueChar quote) text) :
    ∃ resolved, Resolves text resolved :=
  hValue.exists_resolves (by simp [isValueChar, isTextChar])

end Grammar

namespace Cursor
variable {c : Cursor} {text other first resolved resolved' : Chars} {ch : CodePoint} {offset a b : Nat}

theorem spellsFrom_of_readsAt {expected : Chars} (hReads : c.ReadsAt offset text) :
    c.spellsFrom (offset + c.encoding.size text) offset expected = .ok (decide (text = expected)) := by
  induction expected generalizing offset text with
  | nil =>
    cases text with
    | nil => simp [spellsFrom]
    | cons ch rest =>
      have hWidth := c.encoding.width_pos ch
      simp only [spellsFrom, Encoding.size_cons, reduceCtorEq, decide_false]
      rw [beq_eq_false_iff_ne.mpr (by omega)]
  | cons next expected ih =>
    cases text with
    | nil => simp [spellsFrom]
    | cons ch rest =>
      have hWidth := c.encoding.width_pos ch
      rw [spellsFrom, Encoding.size_cons, if_neg (by omega), hReads.1]
      simp only [List.cons.injEq]
      by_cases hSame : ch = next
      · rw [if_pos hSame, ← Nat.add_assoc, ih hReads.2]
        simp [hSame]
      · simp [hSame]

theorem spells_of_readsAt {expected : Chars} (hReads : c.ReadsAt offset text) :
    c.spells offset (c.encoding.size text) expected = .ok (decide (text = expected)) :=
  spellsFrom_of_readsAt hReads

theorem nextResolved_eq_ok_iff {c' : Cursor} : Scan.nextResolved c = .ok ch c' ↔
    ∃ first, Resolves.First first ch ∧ c.Reads first ∧ c' = c.advance first := by
  rw [Scan.nextResolved, Scan.bind_eq_ok_iff]
  simp only [Scan.next_eq_ok_iff]
  constructor
  · rintro ⟨d, _, ⟨hReads, rfl⟩, hOk⟩
    split at hOk
    · subst ‹d = _›
      rw [Scan.reference, Scan.drive_eq_ok_iff] at hOk
      obtain ⟨_, hText, hAccepts, rfl⟩ := hOk
      obtain ⟨body, rfl, hBody⟩ := Reference.accepts_iff.mp hAccepts
      exact ⟨_, .reference hBody, reads_cons.mpr ⟨hReads, hText⟩, rfl⟩
    · obtain ⟨rfl, rfl⟩ := pure_eq_ok_iff.mp hOk
      exact ⟨[ch], .char ‹_›, hReads, rfl⟩
  · rintro ⟨_, hFirst, hReads, rfl⟩
    cases hFirst with
    | char hOther =>
      refine ⟨ch, _, ⟨hReads, rfl⟩, ?_⟩
      rw [if_neg hOther]
      rfl
    | @reference body _ hBody =>
      obtain ⟨hHead, hRest⟩ := reads_cons.mp hReads
      refine ⟨CodePoint.ampersand, _, ⟨hHead, rfl⟩, ?_⟩
      rw [if_pos rfl, Scan.reference, Scan.drive_eq_ok_iff]
      exact ⟨_, hRest, Reference.accepts_iff.mpr ⟨body, rfl, hBody⟩, rfl⟩

theorem resolvedAt_of_first (hFirst : Resolves.First first ch) (hReads : c.ReadsAt offset first) :
    c.resolvedAt offset = .ok (ch, c.encoding.size first) := by
  have hThere : ({ c with offset } : Cursor).Reads first :=
    (@readsAt_congr c { c with offset } _ _ rfl rfl rfl).mpr hReads
  have hNext : Scan.nextResolved { c with offset } = .ok ch (({ c with offset } : Cursor).advance first) :=
    nextResolved_eq_ok_iff.mpr ⟨first, hFirst, hThere, rfl⟩
  rw [resolvedAt, hNext]
  simp

/-- Of two texts that resolve, the comparison tells whether they resolve alike. -/
theorem sameResolved_of_resolves (hText : Resolves text resolved) (hOther : Resolves other resolved')
    (hReads : c.ReadsAt a text) (hReadsOther : c.ReadsAt b other) :
    c.sameResolved (a + c.encoding.size text) (b + c.encoding.size other) a b =
      .ok (decide (resolved = resolved')) := by
  have hSize : ∀ {text : Chars}, text ≠ [] → 0 < c.encoding.size text := Encoding.size_pos
  induction resolved generalizing text other resolved' a b with
  | nil =>
    obtain rfl := resolves_nil_iff.mp hText
    rw [Overlay.sameResolved_eq, if_neg (by simp)]
    cases resolved' with
    | nil =>
      obtain rfl := resolves_nil_iff.mp hOther
      simp
    | cons d resolved' =>
      obtain ⟨first, rest, rfl, hFirst, -⟩ := hOther.exists_first
      have hPos := hSize hFirst.ne_nil
      have hLong : ¬b + c.encoding.size (first ++ rest) ≤ b := by
        rw [Encoding.size_append]
        omega
      rw [decide_eq_false hLong, Bool.and_false, decide_eq_false (List.cons_ne_nil _ _).symm]
  | cons ch resolved ih =>
    obtain ⟨first, rest, rfl, hFirst, hRest⟩ := hText.exists_first
    have hPos := hSize hFirst.ne_nil
    rw [Overlay.sameResolved_eq, Encoding.size_append]
    cases resolved' with
    | nil =>
      obtain rfl := resolves_nil_iff.mp hOther
      have hShort : ¬a + (c.encoding.size first + c.encoding.size rest) ≤ a := by omega
      rw [if_neg (by simp)]
      simp [hShort]
    | cons d resolved' =>
      obtain ⟨first', rest', rfl, hFirst', hRest'⟩ := hOther.exists_first
      have hPos' := hSize hFirst'.ne_nil
      rw [readsAt_append] at hReads hReadsOther
      rw [Encoding.size_append, if_pos (by omega), resolvedAt_of_first hFirst hReads.1,
        resolvedAt_of_first hFirst' hReadsOther.1]
      change (if ch = d then _ else _) = _
      by_cases hSame : ch = d
      · rw [if_pos hSame, ← Nat.add_assoc, ← Nat.add_assoc, ih hRest hRest' hReads.2 hReadsOther.2]
        simp [hSame]
      · rw [if_neg hSame]
        simp [hSame]

theorem resolvedEq_of_resolves (hText : Resolves text resolved) (hOther : Resolves other resolved')
    (hReads : c.ReadsAt a text) (hReadsOther : c.ReadsAt b other) :
    c.resolvedEq a (c.encoding.size text) b (c.encoding.size other) = .ok (decide (resolved = resolved')) :=
  sameResolved_of_resolves hText hOther hReads hReadsOther

theorem spellsResolvedFrom_of_resolves {expected : Chars} (hText : Resolves text resolved)
    (hReads : c.ReadsAt offset text) :
    c.spellsResolvedFrom (offset + c.encoding.size text) offset expected = .ok (decide (resolved = expected)) := by
  induction expected generalizing text resolved offset with
  | nil =>
    cases resolved with
    | nil =>
      obtain rfl := resolves_nil_iff.mp hText
      simp [spellsResolvedFrom]
    | cons ch resolved =>
      obtain ⟨first, rest, rfl, hFirst, -⟩ := hText.exists_first
      have hPos : 0 < c.encoding.size first := Encoding.size_pos hFirst.ne_nil
      rw [spellsResolvedFrom, Encoding.size_append]
      simp only [reduceCtorEq, decide_false, Except.ok.injEq, decide_eq_false_iff_not]
      omega
  | cons d expected ih =>
    rw [Overlay.spellsResolvedFrom_cons]
    cases resolved with
    | nil =>
      obtain rfl := resolves_nil_iff.mp hText
      simp
    | cons ch resolved =>
      obtain ⟨first, rest, rfl, hFirst, hRest⟩ := hText.exists_first
      have hPos : 0 < c.encoding.size first := Encoding.size_pos hFirst.ne_nil
      rw [readsAt_append] at hReads
      rw [Encoding.size_append, if_neg (by omega), resolvedAt_of_first hFirst hReads.1]
      change (if ch = d then _ else _) = _
      by_cases hSame : ch = d
      · rw [if_pos hSame, ← Nat.add_assoc, ih hRest hReads.2]
        simp [hSame]
      · rw [if_neg hSame]
        simp [hSame]

/-- A value that resolves names a reserved namespace just if it resolves to its name. -/
theorem reserved_of_resolves (hText : Resolves text resolved) (hReads : c.ReadsAt offset text) :
    Namespace.reserved offset (c.encoding.size text) c =
      .ok (if resolved = CodePoint.ofText Namespace.xml then .xml
        else if resolved = CodePoint.ofText Namespace.xmlns then .xmlns else .none) := by
  have hSpells : ∀ expected, c.spellsResolved offset (c.encoding.size text) expected =
      .ok (decide (resolved = expected)) := fun _ => spellsResolvedFrom_of_resolves hText hReads
  rw [Namespace.reserved, hSpells, hSpells]
  by_cases hXml : resolved = CodePoint.ofText Namespace.xml
  · simp [hXml]
    rfl
  · by_cases hXmlns : resolved = CodePoint.ofText Namespace.xmlns
    · simp [hXmlns]
      rfl
    · simp [hXml, hXmlns]
      rfl

end Cursor
end XmlIndex
