import XmlIndex.Lexer.Progress
import XmlIndex.Proofs.Grammar.Tokens
import XmlIndex.Proofs.Scan.Names

/-! # Reading on and writing tokens

Where an action of the lexer succeeds it leaves the lexer after a text, with more tokens than before.
-/
namespace XmlIndex
set_option autoImplicit false
open Grammar

namespace Draft

def append (d : Draft) (tokens : List Token) : Draft :=
  { d with tokens := d.tokens ++ tokens.toArray }

variable {d : Draft} {kind : TokenKind} {depth : Int} {offset length : Nat}

@[simp] theorem append_nil : d.append [] = d := by
  simp [append]

@[simp] theorem append_append {tokens more : List Token} :
    (d.append tokens).append more = d.append (tokens ++ more) := by
  simp [append]

@[simp] theorem toList_append {tokens : List Token} :
    (d.append tokens).tokens.toList = d.tokens.toList ++ tokens := by
  simp [append]

theorem write_eq {t : Token} : d.write t = d.append [t] := by
  simp [append, write]

def cut (kind : TokenKind) (depth : Int) (offset length : Nat) : List Token :=
  (List.range ((length - 1) / Token.maxLength + 1)).map fun i =>
    ⟨kind, depth, offset + i * Token.maxLength, min Token.maxLength (length - i * Token.maxLength)⟩

theorem cut_of_le (hLength : length ≤ Token.maxLength) :
    cut kind depth offset length = [⟨kind, depth, offset, length⟩] := by
  have hCount : (length - 1) / Token.maxLength = 0 := by
    refine Nat.div_eq_of_lt ?_
    unfold Token.maxLength at *
    omega
  simp [cut, hCount, Nat.min_eq_right hLength]

theorem cut_of_lt (hLength : Token.maxLength < length) :
    cut kind depth offset length = ⟨kind, depth, offset, Token.maxLength⟩ ::
      cut kind depth (offset + Token.maxLength) (length - Token.maxLength) := by
  have hCount : (length - 1) / Token.maxLength =
      (length - Token.maxLength - 1) / Token.maxLength + 1 := by
    unfold Token.maxLength at *
    omega
  have hRest : ∀ i, offset + (i + 1) * Token.maxLength = offset + Token.maxLength + i * Token.maxLength ∧
      length - (i + 1) * Token.maxLength = length - Token.maxLength - i * Token.maxLength := by
    intro i
    rw [Nat.succ_mul]
    omega
  unfold cut
  rw [hCount, List.range_succ_eq_map, List.map_cons, List.map_map]
  simp only [Function.comp_def, Nat.succ_eq_add_one, hRest, Nat.zero_mul, Nat.add_zero, Nat.sub_zero,
    Nat.min_eq_left (Nat.le_of_lt hLength)]

theorem writeText_eq : d.writeText kind depth offset length = d.append (cut kind depth offset length) := by
  fun_induction writeText d kind depth offset length with
  | case1 d offset length hLength ih =>
    rw [ih, cut_of_lt hLength, write_eq, append_append]
    rfl
  | case2 d offset length hLength =>
    rw [cut_of_le (Nat.le_of_not_lt hLength), write_eq]

@[simp] theorem tokens_recordElement {token : Nat} : (d.recordElement depth token).tokens = d.tokens := by
  unfold recordElement
  split
  · rfl
  · split <;> rfl

def element (d : Draft) (e : Encoding) (depth : Int) (place : Nat) (name : Chars) : Draft :=
  let token := nameToken e .startTag depth place name
  d.writeElement depth token.offset token.lengthField

theorem toList_element {e : Encoding} {place : Nat} {name : Chars} :
    (d.element e depth place name).tokens.toList =
      d.tokens.toList ++ [nameToken e .startTag depth place name] := by
  simp [element, writeElement, write, nameToken]

end Draft

namespace Lexer

def past (s : Lexer) (text : Chars) : Lexer :=
  { s with cursor := s.cursor.advance text }

def add (s : Lexer) (tokens : List Token) : Lexer :=
  { s with draft := s.draft.append tokens }

def addElement (s : Lexer) (e : Encoding) (depth : Int) (place : Nat) (name : Chars) : Lexer :=
  { s with draft := s.draft.element e depth place name }

variable {s : Lexer} {text rest : Chars} {tokens more : List Token}

@[simp] theorem past_nil : s.past [] = s :=
  rfl

theorem past_append : s.past (text ++ rest) = (s.past text).past rest := by
  simp [past, Cursor.advance_append]

@[simp] theorem add_nil : s.add [] = s := by
  simp [add]

@[simp] theorem add_add : (s.add tokens).add more = s.add (tokens ++ more) := by
  simp [add]

@[simp] theorem add_past : (s.add tokens).past text = (s.past text).add tokens :=
  rfl

@[simp] theorem cursor_past : (s.past text).cursor = s.cursor.advance text :=
  rfl

@[simp] theorem cursor_add : (s.add tokens).cursor = s.cursor :=
  rfl

@[simp] theorem openTags_past : (s.past text).openTags = s.openTags :=
  rfl

@[simp] theorem depth_past : (s.past text).depth = s.depth :=
  rfl

@[simp] theorem depth_add : (s.add tokens).depth = s.depth :=
  rfl

@[simp] theorem hasDoctype_past : (s.past text).hasDoctype = s.hasDoctype :=
  rfl

@[simp] theorem recordWhitespace_past : (s.past text).recordWhitespace = s.recordWhitespace :=
  rfl

@[simp] theorem recordWhitespace_add : (s.add tokens).recordWhitespace = s.recordWhitespace :=
  rfl

end Lexer

namespace Lex
variable {s s' : Lexer} {α : Type} {a : α} {u : Unit}

theorem read_eq_ok_iff {action : Scan α} :
    read action s = .ok a s' ↔ ∃ c', action s.cursor = .ok a c' ∧ s' = { s with cursor := c' } := by
  unfold read
  split
  · rename_i a' c' hOk
    rw [EStateM.Result.ok.injEq, hOk]
    constructor
    · rintro ⟨rfl, rfl⟩
      exact ⟨c', rfl, rfl⟩
    · rintro ⟨_, hSame, rfl⟩
      cases hSame
      exact ⟨rfl, rfl⟩
  · rename_i hError
    simp [hError]

theorem look_eq_ok_iff {view : Lexer → α} : look view s = .ok a s' ↔ a = view s ∧ s' = s := by
  rw [look, EStateM.Result.ok.injEq, eq_comm, @eq_comm _ s]

theorem update_eq_ok_iff {change : Lexer → Lexer} : update change s = .ok u s' ↔ s' = change s := by
  simp [update, eq_comm]

theorem bind_of_ok {β : Type} {action : Lex α} {next : α → Lex β} (hOk : action s = .ok a s') :
    (action >>= next) s = next a s' := by
  change EStateM.bind _ _ _ = _
  rw [EStateM.bind, hOk]

theorem bind_of_error {β : Type} {action : Lex α} {next : α → Lex β} {fault : Fault}
    (hError : action s = .error fault s') : (action >>= next) s = .error fault s' := by
  change EStateM.bind _ _ _ = _
  rw [EStateM.bind, hError]

theorem require_eq_ok_iff {condition : Bool} {cause : SyntaxFault} :
    require condition cause s = .ok u s' ↔ condition = true ∧ s' = s := by
  unfold require
  split
  · simp [pure_eq_ok_iff, *]
  · simp [throw_eq_ok_iff, *]

theorem requireAt_eq_ok_iff {offset : Nat} {condition : Bool} {cause : SyntaxFault} :
    requireAt offset condition cause s = .ok u s' ↔ condition = true ∧ s' = s := by
  unfold requireAt
  split
  · simp [pure_eq_ok_iff, *]
  · simp [throw_eq_ok_iff, *]

theorem fail_eq_ok_iff {cause : SyntaxFault} : (fail cause : Lex α) s = .ok a s' ↔ False :=
  throw_eq_ok_iff

theorem read_next_eq_ok_iff {ch : CodePoint} :
    read Scan.next s = .ok ch s' ↔ s.cursor.Reads [ch] ∧ s' = s.past [ch] := by
  simp only [read_eq_ok_iff, Scan.next_eq_ok_iff]
  constructor
  · rintro ⟨_, ⟨hReads, rfl⟩, rfl⟩
    exact ⟨hReads, rfl⟩
  · rintro ⟨hReads, rfl⟩
    exact ⟨_, ⟨hReads, rfl⟩, rfl⟩

theorem read_skip_eq_ok_true_iff {ch : CodePoint} :
    read (Scan.skip ch) s = .ok true s' ↔ s.cursor.Reads [ch] ∧ s' = s.past [ch] := by
  simp only [read_eq_ok_iff, Scan.skip_eq_ok_true_iff]
  constructor
  · rintro ⟨_, ⟨hReads, rfl⟩, rfl⟩
    exact ⟨hReads, rfl⟩
  · rintro ⟨hReads, rfl⟩
    exact ⟨_, ⟨hReads, rfl⟩, rfl⟩

theorem read_skip_eq_ok_false_iff {expected : CodePoint} :
    read (Scan.skip expected) s = .ok false s' ↔ ∃ ch, ch ≠ expected ∧ s.cursor.Reads [ch] ∧ s' = s := by
  simp only [read_eq_ok_iff, Scan.skip_eq_ok_false_iff]
  constructor
  · rintro ⟨_, ⟨ch, hOther, hReads, rfl⟩, rfl⟩
    exact ⟨ch, hOther, hReads, rfl⟩
  · rintro ⟨ch, hOther, hReads, rfl⟩
    exact ⟨_, ⟨ch, hOther, hReads, rfl⟩, rfl⟩

theorem read_skipAll_eq_ok_true_iff {text : Chars} :
    read (Scan.skipAll text) s = .ok true s' ↔ s.cursor.Reads text ∧ s' = s.past text := by
  simp only [read_eq_ok_iff, Scan.skipAll_eq_ok_true_iff]
  constructor
  · rintro ⟨_, ⟨hReads, rfl⟩, rfl⟩
    exact ⟨hReads, rfl⟩
  · rintro ⟨hReads, rfl⟩
    exact ⟨_, ⟨hReads, rfl⟩, rfl⟩

theorem read_nextAfterSpace_eq_ok_iff {ch : CodePoint} : read Scan.nextAfterSpace s = .ok ch s' ↔
    ∃ space, s.cursor.Reads (space ++ [ch]) ∧ IsSpace space ∧ CodePoint.isSpace ch = false ∧
      s' = s.past (space ++ [ch]) := by
  simp only [read_eq_ok_iff, Scan.nextAfterSpace_eq_ok_iff]
  constructor
  · rintro ⟨_, ⟨space, hReads, hSpace, hLast, rfl⟩, rfl⟩
    exact ⟨space, hReads, hSpace, hLast, rfl⟩
  · rintro ⟨space, hReads, hSpace, hLast, rfl⟩
    exact ⟨_, ⟨space, hReads, hSpace, hLast, rfl⟩, rfl⟩

theorem read_offset_eq_ok_iff {n : Nat} :
    read Scan.offset s = .ok n s' ↔ n = s.cursor.offset ∧ s' = s := by
  simp only [read_eq_ok_iff, Scan.offset_eq_ok_iff]
  constructor
  · rintro ⟨_, ⟨rfl, rfl⟩, rfl⟩
    exact ⟨rfl, rfl⟩
  · rintro ⟨rfl, rfl⟩
    exact ⟨_, ⟨rfl, rfl⟩, rfl⟩

theorem read_last_eq_ok_iff {n : Nat} :
    read Scan.last s = .ok n s' ↔ n = s.cursor.last ∧ s' = s := by
  simp only [read_eq_ok_iff, Scan.last_eq_ok_iff]
  constructor
  · rintro ⟨_, ⟨rfl, rfl⟩, rfl⟩
    exact ⟨rfl, rfl⟩
  · rintro ⟨rfl, rfl⟩
    exact ⟨_, ⟨rfl, rfl⟩, rfl⟩

variable {kind : TokenKind} {span : Span}

theorem emit_eq_ok_iff : emit kind span s = .ok u s' ↔
    s' = s.add [token s.cursor.encoding kind s.depth span.offset span.length] := by
  simp only [emit, update_eq_ok_iff, Draft.write_eq]
  rfl

theorem emitBounded_eq_ok_iff : emitBounded kind span s = .ok u s' ↔
    span.length / s.cursor.encoding.unitSize ≤ Token.maxLength ∧
      s' = s.add [token s.cursor.encoding kind s.depth span.offset span.length] := by
  simp only [emitBounded, bind_eq_ok_iff, look_eq_ok_iff, requireAt_eq_ok_iff, emit_eq_ok_iff,
    decide_eq_true_eq]
  constructor
  · rintro ⟨_, _, ⟨rfl, rfl⟩, _, _, ⟨hLength, rfl⟩, rfl⟩
    exact ⟨hLength, rfl⟩
  · rintro ⟨hLength, rfl⟩
    exact ⟨_, _, ⟨rfl, rfl⟩, (), _, ⟨hLength, rfl⟩, rfl⟩

theorem emitText_eq_ok_iff : emitText kind span s = .ok u s' ↔
    s' = s.add (pieces s.cursor.encoding kind s.depth span.offset span.length) := by
  simp only [emitText, update_eq_ok_iff, Draft.writeText_eq]
  rfl

/-- Space between markup is a token if it is recorded and lies inside the root. -/
theorem emitSpace_eq_ok_iff {place stop : Nat} : emitSpace place stop s = .ok u s' ↔
    s' = if s.recordWhitespace && !s.openTags.isEmpty && decide (place < stop) then
      s.add (pieces s.cursor.encoding .characterData s.depth place (stop - place)) else s := by
  simp only [emitSpace, bind_eq_ok_iff, look_eq_ok_iff]
  constructor
  · rintro ⟨_, _, ⟨rfl, rfl⟩, hOk⟩
    split at hOk
    · rw [if_pos ‹_›, emitText_eq_ok_iff.mp hOk]
    · rw [if_neg ‹_›, (pure_eq_ok_iff.mp hOk).2]
  · rintro rfl
    refine ⟨_, _, ⟨rfl, rfl⟩, ?_⟩
    split
    · exact emitText_eq_ok_iff.mpr rfl
    · exact pure_eq_ok_iff.mpr ⟨rfl, rfl⟩

section
variable {e : Encoding} {place : Nat} {text : Chars}

theorem checkName_eq_ok_iff (hEncoding : s.cursor.encoding = e) :
    checkName (Scan.nameAt e place text) s = .ok u s' ↔ NameFits e text ∧ s' = s := by
  subst hEncoding
  simp only [checkName, bind_eq_ok_iff, look_eq_ok_iff, requireAt_eq_ok_iff, Bool.and_eq_true,
    decide_eq_true_eq]
  constructor
  · rintro ⟨_, _, ⟨rfl, rfl⟩, _, _, ⟨rfl, rfl⟩, hFits, rfl⟩
    exact ⟨hFits, rfl⟩
  · rintro ⟨hFits, rfl⟩
    exact ⟨_, _, ⟨rfl, rfl⟩, _, _, ⟨rfl, rfl⟩, hFits, rfl⟩

theorem emitName_eq_ok_iff (hEncoding : s.cursor.encoding = e) :
    emitName kind (Scan.nameAt e place text) s = .ok u s' ↔
      NameFits e text ∧ s' = s.add [nameToken e kind s.depth place text] := by
  simp only [emitName, bind_eq_ok_iff, checkName_eq_ok_iff hEncoding, update_eq_ok_iff, Draft.write_eq]
  subst hEncoding
  constructor
  · rintro ⟨_, _, ⟨hFits, rfl⟩, rfl⟩
    exact ⟨hFits, rfl⟩
  · rintro ⟨hFits, rfl⟩
    exact ⟨(), _, ⟨hFits, rfl⟩, rfl⟩

theorem emitElement_eq_ok_iff {depth : Int} (hEncoding : s.cursor.encoding = e) (hDepth : s.depth = depth) :
    emitElement (Scan.nameAt e place text) s = .ok u s' ↔
      NameFits e text ∧ s' = s.addElement e depth place text := by
  simp only [emitElement, bind_eq_ok_iff, checkName_eq_ok_iff hEncoding, update_eq_ok_iff]
  subst hEncoding hDepth
  constructor
  · rintro ⟨_, _, ⟨hFits, rfl⟩, rfl⟩
    exact ⟨hFits, rfl⟩
  · rintro ⟨hFits, rfl⟩
    exact ⟨(), _, ⟨hFits, rfl⟩, rfl⟩

end

end Lex
end XmlIndex
