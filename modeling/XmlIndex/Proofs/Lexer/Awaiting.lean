import XmlIndex.Parse
import XmlIndex.Proofs.Grammar.Remainder
import XmlIndex.Proofs.Lexer.Markup
import XmlIndex.Proofs.Lexer.Tags

/-! # What a lexer awaits

A lexer at some phase completes its document exactly if the rest of the document, all of it, is a
text of a certain language; the tokens that it goes on to write are those of the text. This is stated
phase by phase, to be proved by induction on what is left of the document.
-/
namespace XmlIndex
set_option autoImplicit false
open Grammar

structure Reading where
  encoding : Encoding
  tokens : List Token
  deriving DecidableEq

namespace Lexer

def tokens (s : Lexer) : List Token :=
  s.draft.tokens.toList

def reading (s : Lexer) : Reading :=
  ⟨s.cursor.encoding, s.tokens⟩

/-- The rest of the document is a text of the language, and `r` is what the document then is. -/
def Awaits (s : Lexer) (language : Language) (r : Reading) : Prop :=
  ∃ text tokens, s.cursor.Reads text ∧ language text tokens ∧ (s.cursor.advance text).Ends ∧
    r = ⟨s.cursor.encoding, s.tokens ++ tokens⟩

section
variable {s t : Lexer} {language other : Language} {r : Reading} {text : Chars} {tokens : List Token}

@[simp] theorem tokens_past : (s.past text).tokens = s.tokens :=
  rfl

@[simp] theorem tokens_add : (s.add tokens).tokens = s.tokens ++ tokens :=
  Draft.toList_append

/-- What is awaited depends on the cursor and on the tokens so far alone. -/
theorem awaits_congr (hCursor : t.cursor = s.cursor) (hTokens : t.tokens = s.tokens) :
    t.Awaits language r ↔ s.Awaits language r := by
  rw [Awaits, Awaits, hCursor, hTokens]

theorem awaits_congr_language (h : ∀ text tokens, language text tokens ↔ other text tokens) :
    s.Awaits language r ↔ s.Awaits other r := by
  simp only [Awaits, h]

theorem awaits_after : s.Awaits (Language.after text tokens language) r ↔
    s.cursor.Reads text ∧ ((s.past text).add tokens).Awaits language r := by
  constructor
  · rintro ⟨_, _, hReads, ⟨others, more, hRest, rfl, rfl⟩, hEnds, rfl⟩
    rw [Cursor.reads_append] at hReads
    rw [Cursor.advance_append] at hEnds
    exact ⟨hReads.1, others, more, hReads.2, hRest, hEnds, by simp⟩
  · rintro ⟨hText, others, more, hReads, hRest, hEnds, rfl⟩
    refine ⟨_, _, Cursor.reads_append.mpr ⟨hText, hReads⟩, ⟨others, more, hRest, rfl, rfl⟩, ?_, by simp⟩
    rw [Cursor.advance_append]
    exact hEnds

theorem awaits_exists {ι : Sort _} {family : ι → Language} :
    s.Awaits (fun text tokens => ∃ i, family i text tokens) r ↔ ∃ i, s.Awaits (family i) r := by
  constructor
  · rintro ⟨text, tokens, hReads, ⟨i, hText⟩, h⟩
    exact ⟨i, text, tokens, hReads, hText, h⟩
  · rintro ⟨i, text, tokens, hReads, hText, h⟩
    exact ⟨text, tokens, hReads, ⟨i, hText⟩, h⟩

theorem awaits_and {p : Prop} :
    s.Awaits (fun text tokens => p ∧ language text tokens) r ↔ p ∧ s.Awaits language r := by
  constructor
  · rintro ⟨text, tokens, hReads, ⟨hp, hText⟩, h⟩
    exact ⟨hp, text, tokens, hReads, hText, h⟩
  · rintro ⟨hp, text, tokens, hReads, hText, h⟩
    exact ⟨text, tokens, hReads, ⟨hp, hText⟩, h⟩

theorem awaits_or : s.Awaits (fun text tokens => language text tokens ∨ other text tokens) r ↔
    s.Awaits language r ∨ s.Awaits other r := by
  constructor
  · rintro ⟨text, tokens, hReads, hText | hText, h⟩
    · exact .inl ⟨text, tokens, hReads, hText, h⟩
    · exact .inr ⟨text, tokens, hReads, hText, h⟩
  · rintro (⟨text, tokens, hReads, hText, h⟩ | ⟨text, tokens, hReads, hText, h⟩)
    · exact ⟨text, tokens, hReads, .inl hText, h⟩
    · exact ⟨text, tokens, hReads, .inr hText, h⟩

def remaining (s : Lexer) : Nat :=
  s.cursor.stop - s.cursor.offset

theorem remaining_past_lt (hReads : s.cursor.Reads text) (hNonempty : text ≠ []) :
    (s.past text).remaining < s.remaining := by
  obtain ⟨ch, rest, rfl⟩ := List.exists_cons_of_ne_nil hNonempty
  have hRoom := hReads.le_stop hNonempty
  have hWidth := s.cursor.encoding.width_pos ch
  simp only [remaining, cursor_past, Cursor.stop_advance, Cursor.offset_advance, Encoding.size_cons] at *
  omega

theorem remaining_past_le (hReads : s.cursor.Reads text) : (s.past text).remaining ≤ s.remaining := by
  cases text with
  | nil => exact Nat.le_refl _
  | cons ch rest => exact Nat.le_of_lt (remaining_past_lt hReads (List.cons_ne_nil _ _))

end

end Lexer

namespace Lex

/-- The action succeeds, and the document is then complete. -/
def Completes (action : Lex Unit) (s : Lexer) (r : Reading) : Prop :=
  ∃ s', action s = .ok () s' ∧ s'.reading = r

def finish : Option Phase → Lex Unit
  | none => pure ()
  | some phase => run phase

variable {α : Type} {s : Lexer} {r : Reading} {phase : Phase}

theorem run_eq : run phase s = (step phase >>= finish) s := by
  rw [run]
  change _ = EStateM.bind _ _ _
  unfold EStateM.bind
  split <;> simp only [*, finish]
  rfl

/-- A phase that does not end the document hands over to the next. -/
theorem run_of_step {action : Lex Phase} (hStep : step phase = some <$> action) :
    run phase s = (action >>= run) s := by
  rw [run_eq, hStep, map_eq_pure_bind, bind_assoc]
  simp only [pure_bind]
  rfl

theorem completes_bind {action : Lex α} {next : α → Lex Unit} :
    Completes (action >>= next) s r ↔ ∃ a s', action s = .ok a s' ∧ Completes (next a) s' r := by
  simp only [Completes, bind_eq_ok_iff]
  constructor
  · rintro ⟨s'', ⟨a, s', hAction, hNext⟩, hReading⟩
    exact ⟨a, s', hAction, s'', hNext, hReading⟩
  · rintro ⟨a, s', hAction, s'', hNext, hReading⟩
    exact ⟨s'', ⟨a, s', hAction, hNext⟩, hReading⟩

theorem completes_of_ok {action : Lex α} {next : α → Lex Unit} {a : α} {s' : Lexer}
    (hOk : action s = .ok a s') : Completes (action >>= next) s r ↔ Completes (next a) s' r := by
  rw [Completes, Completes, bind_of_ok hOk]

theorem completes_require {condition : Bool} {cause : SyntaxFault} {next : Unit → Lex Unit} :
    Completes (require condition cause >>= next) s r ↔ condition = true ∧ Completes (next ()) s r := by
  simp only [completes_bind, require_eq_ok_iff]
  constructor
  · rintro ⟨_, _, ⟨hCondition, rfl⟩, hNext⟩
    exact ⟨hCondition, hNext⟩
  · rintro ⟨hCondition, hNext⟩
    exact ⟨(), _, ⟨hCondition, rfl⟩, hNext⟩

theorem completes_update {change : Lexer → Lexer} {next : Unit → Lex Unit} :
    Completes (update change >>= next) s r ↔ Completes (next ()) (change s) r :=
  completes_of_ok rfl

theorem completes_offset {next : Nat → Lex Unit} :
    Completes (read Scan.offset >>= next) s r ↔ Completes (next s.cursor.offset) s r :=
  completes_of_ok rfl

theorem completes_last {next : Nat → Lex Unit} :
    Completes (read Scan.last >>= next) s r ↔ Completes (next s.cursor.last) s r :=
  completes_of_ok rfl

theorem completes_next {next : CodePoint → Lex Unit} : Completes (read Scan.next >>= next) s r ↔
    ∃ ch, s.cursor.Reads [ch] ∧ Completes (next ch) (s.past [ch]) r := by
  simp only [completes_bind, read_next_eq_ok_iff]
  constructor
  · rintro ⟨ch, _, ⟨hReads, rfl⟩, hNext⟩
    exact ⟨ch, hReads, hNext⟩
  · rintro ⟨ch, hReads, hNext⟩
    exact ⟨ch, _, ⟨hReads, rfl⟩, hNext⟩

theorem completes_run {action : Lex Phase} (hStep : step phase = some <$> action) :
    Completes (run phase) s r ↔ Completes (action >>= run) s r := by
  rw [Completes, Completes, run_of_step hStep]

end Lex

namespace Lexer
open XmlIndex.Lex

/-- The lexer completes its document, whatever comes next, exactly if that is as it must be. -/
structure Understood (s : Lexer) : Prop where
  inside : ∀ {name : Chars} {names : List Chars} {r : Reading}, s.Opened (name :: names) →
    (Completes (run .markup) s r ↔
      s.Awaits (marked s.cursor.encoding s.recordWhitespace name names s.cursor.offset) r)
  outside : ∀ {r : Reading}, s.openTags = [] → (Completes (run .markup) s r ↔
    s.Awaits (prolog s.cursor.encoding s.recordWhitespace s.hasDoctype s.cursor.offset) r)
  inTag : ∀ {first : CodePoint} {space name : Chars} {names seen : List Chars} {place : Nat}
      {r : Reading}, s.Opened (name :: names) → s.Seen seen → s.cursor.Reads [first] →
    CodePoint.isNameStart first = true → IsSpace space → space ≠ [] →
    s.cursor.offset = place + s.cursor.encoding.size space →
    (Completes (run (.attributes s.cursor.offset first)) (s.past [first]) r ↔
      s.Awaits (attributeRest s.cursor.encoding s.recordWhitespace name names seen space place) r)
  afterRoot : ∀ {r : Reading}, s.openTags = [] →
    (Completes (run .epilog) s r ↔ s.Awaits (Grammar.epilog s.cursor.encoding s.cursor.offset) r)

def Below (s : Lexer) : Prop :=
  ∀ t : Lexer, t.remaining < s.remaining → t.namespaces = false → t.Understood

theorem Below.mono {s t : Lexer} (hBelow : s.Below) (hRemaining : t.remaining ≤ s.remaining) : t.Below :=
  fun u hu => hBelow u (Nat.lt_of_lt_of_le hu hRemaining)

end Lexer
end XmlIndex
