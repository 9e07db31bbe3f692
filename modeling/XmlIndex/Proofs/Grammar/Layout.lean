import Mathlib.Data.List.Forall2
import Mathlib.Data.Nat.ModEq
import XmlIndex.Proofs.Grammar.Twins

/-! # Tokens laid out along a text

The tokens of a text come in the order of its parts, and each is a name or a piece of a run that
stands there. So a token lies inside the text, fits its record, and begins and ends with characters
of the text unless its run was too long for one token.
-/
namespace XmlIndex.Grammar
set_option autoImplicit false

/-- The tokens of a text that begins at `place`. -/
inductive Layout (e : Encoding) : (place : Nat) → Chars → List Token → Prop where
  | blank {place : Nat} {text : Chars} : Layout e place text []
  | name {kind : TokenKind} {depth : Int} {place : Nat} {name : Chars} :
      name ≠ [] → kind.isQualified = true → NameFits e name →
      Layout e place name [nameToken e kind depth place name]
  | run {kind : TokenKind} {depth : Int} {place : Nat} {body after : Chars} :
      body ++ after ≠ [] → kind.isQualified = false → isCut kind = true ∨ TextFits e body →
      Layout e place (body ++ after) (pieces e kind depth place (e.size body))
  | append {place : Nat} {text rest : Chars} {tokens more : List Token} :
      Layout e place text tokens → Layout e (place + e.size text) rest more →
      Layout e place (text ++ rest) (tokens ++ more)

variable {e : Encoding} {place : Nat} {depth : Int} {kind : TokenKind}

/-- Either of two twins is laid out along the text. -/
theorem Twin.layout {P : Chars → Prop} {e' : Encoding} {place' : Nat} {text : Chars} {tokens tokens' : List Token}
    (hTwin : Twin P e e' place place' text tokens tokens') : Layout e place text tokens := by
  induction hTwin with
  | blank => exact .blank
  | name hSome hKind hFits => exact .name hSome hKind hFits
  | run hSome hKind hShort => exact .run hSome hKind (hShort.imp And.left And.left)
  | append _ _ ih ihRest => exact ih.append ihRest

/-- A text that is not cut. -/
theorem Layout.token {body after : Chars} (hSome : body ++ after ≠ []) (hKind : kind.isQualified = false)
    (hFits : TextFits e body) : Layout e place (body ++ after) [Grammar.token e kind depth place (e.size body)] := by
  rw [← pieces_of_fits hFits]
  exact .run hSome hKind (.inr hFits)

/-- Text without tokens before a part that has some. -/
theorem Layout.after {text rest : Chars} {tokens : List Token} {later : Nat} (hLater : later = place + e.size text)
    (hRest : Layout e later rest tokens) : Layout e place (text ++ rest) tokens := by
  subst hLater
  exact .append .blank hRest

theorem Declaration.layout_part {a : Attribute} (hName : TextFits e a.name) (hValue : TextFits e a.binding.value) :
    Layout e place a.text (partTokens e place a) := by
  have hText : a.text = a.space ++ ((a.name ++ a.binding.lead) ++ (a.binding.value ++ [a.binding.quote])) := by
    simp [Attribute.text, Binding.text]
  rw [hText]
  refine .after rfl (Layout.append (.token (by simp [Binding.lead]) rfl hName) ?_)
  have hPlace : place + e.size a.space + e.size (a.name ++ a.binding.lead) = a.valuePlace e place := by
    simp [Attribute.valuePlace, Nat.add_assoc]
  rw [hPlace]
  exact .token (by simp) rfl hValue

theorem Document.layout_body {recordSpace : Bool} {d : Document} (hWell : d.BodyWellFormed) (hFits : d.Fits e) :
    Layout e place (prologText d.prolog ++ (d.root.text ++ d.epilog.text)) (d.bodyTokens e recordSpace place) :=
  (@Document.twin_body _ e e place place recordSpace d hWell hFits.lengths hFits.lengths).layout

section
variable {text : Chars} {tokens : List Token} {t : Token}

theorem length_pieces {size : Nat} (hSome : 1 ≤ size) {whole : Nat} (hWhole : whole ≤ size) :
    (pieces e kind depth place whole).length ≤ size := by
  have hUnits : whole / e.unitSize ≤ whole := Nat.div_le_self _ _
  have hCount : (whole / e.unitSize - 1) / Token.maxLength ≤ whole / e.unitSize - 1 := Nat.div_le_self _ _
  rw [pieces, List.length_map, List.length_range]
  omega

theorem size_pos (hSome : text ≠ []) : 1 ≤ e.size text := by
  obtain ⟨ch, rest, rfl⟩ := List.exists_cons_of_ne_nil hSome
  have hWidth := e.width_pos ch
  rw [Encoding.size_cons]
  omega

/-- A text has no more tokens than bytes. -/
theorem Layout.length_le (hLayout : Layout e place text tokens) : tokens.length ≤ e.size text := by
  induction hLayout with
  | blank => exact Nat.zero_le _
  | name hSome => exact size_pos hSome
  | run hSome =>
    refine length_pieces (size_pos hSome) ?_
    rw [Encoding.size_append]
    exact Nat.le_add_right _ _
  | append _ _ ih ihRest =>
    rw [List.length_append, Encoding.size_append]
    exact Nat.add_le_add ih ihRest

/-- In a text of ASCII the tokens are the same in all encodings that agree on it. -/
theorem Layout.recode {e' : Encoding} (hLayout : Layout e place text tokens) (hAgrees : e.Agrees e')
    (hAscii : IsAscii text) : Layout e' place text tokens := by
  have hUnit := hAgrees.unitSize_eq
  induction hLayout with
  | blank => exact .blank
  | @name kind depth place name hSome hKind hFits =>
    have hName := hAgrees.size_eq hAscii
    have hPrefix := hAgrees.size_eq fun ch hch => hAscii ch (prefix_prefixOf.subset hch)
    have hToken : nameToken e kind depth place name = nameToken e' kind depth place name := by
      rw [nameToken, nameToken, hName, hPrefix, hUnit]
    rw [hToken]
    refine .name hSome hKind ?_
    rwa [NameFits, hName, hPrefix, hUnit]
  | @run kind depth place body after hSome hKind hFits =>
    have hBody := hAgrees.size_eq (isAscii_append.mp hAscii).1
    have hPieces : pieces e kind depth place (e.size body) = pieces e' kind depth place (e'.size body) := by
      rw [pieces, pieces, hBody, hUnit]
    rw [hPieces]
    refine .run hSome hKind ?_
    rwa [TextFits, hBody, hUnit]
  | append _ _ ih ihRest =>
    obtain ⟨hText, hRest⟩ := isAscii_append.mp hAscii
    refine (ih hText).append ?_
    rw [hAgrees.size_eq hText]
    exact ihRest hRest

/-- One of two tokens of a run that was too long for one: the first has the greatest length, and the
second goes on where it ends. -/
def IsPiece (tokens : List Token) (t : Token) : Prop :=
  isCut t.kind = true ∧ ∃ first ∈ tokens, ∃ next ∈ tokens, first.kind = t.kind ∧ next.kind = t.kind ∧
    first.length = Token.maxLength ∧ next.offset = first.offset + Token.maxLength ∧ (t = first ∨ t = next)

theorem IsPiece.mono {more : List Token} (hPiece : IsPiece tokens t) (hMore : ∀ u ∈ tokens, u ∈ more) :
    IsPiece more t := by
  obtain ⟨hKind, first, hFirst, next, hNext, hPiece⟩ := hPiece
  exact ⟨hKind, first, hMore first hFirst, next, hMore next hNext, hPiece⟩

def IsExcerpt (e : Encoding) (place : Nat) (text : Chars) (t : Token) : Prop :=
  ∃ before inner after, text = before ++ (inner ++ after) ∧
    t.offset * e.unitSize = place + e.size before ∧ t.length * e.unitSize = e.size inner

theorem IsExcerpt.append_right {rest : Chars} (hExcerpt : IsExcerpt e place text t) :
    IsExcerpt e place (text ++ rest) t := by
  obtain ⟨before, inner, after, rfl, hOffset, hLength⟩ := hExcerpt
  exact ⟨before, inner, after ++ rest, by simp, hOffset, hLength⟩

theorem IsExcerpt.append_left {rest : Chars} (hExcerpt : IsExcerpt e (place + e.size text) rest t) :
    IsExcerpt e place (text ++ rest) t := by
  obtain ⟨before, inner, after, rfl, hOffset, hLength⟩ := hExcerpt
  exact ⟨text ++ before, inner, after, by simp, by rw [hOffset, Encoding.size_append, Nat.add_assoc], hLength⟩

/-- Both lengths of a name that fits can be told from its length field. -/
theorem qualifiedLength_mod {prefixLength nameLength : Nat} (hName : nameLength ≤ Token.maxNameLength) :
    Token.qualifiedLength prefixLength nameLength % 2048 = nameLength := by
  unfold Token.maxNameLength at hName
  rw [Token.qualifiedLength, ← Nat.shiftLeft_add_eq_or_of_lt (by omega), Nat.shiftLeft_eq]
  omega

theorem qualifiedLength_div {prefixLength nameLength : Nat} (hName : nameLength ≤ Token.maxNameLength) :
    Token.qualifiedLength prefixLength nameLength / 2048 = prefixLength := by
  unfold Token.maxNameLength at hName
  rw [Token.qualifiedLength, ← Nat.shiftLeft_add_eq_or_of_lt (by omega), Nat.shiftLeft_eq]
  omega

theorem qualifiedLength_le {prefixLength nameLength : Nat} (hPrefix : prefixLength ≤ Token.maxPrefixLength)
    (hName : nameLength ≤ Token.maxNameLength) :
    Token.qualifiedLength prefixLength nameLength ≤ Token.maxLength := by
  unfold Token.maxNameLength at hName
  unfold Token.maxPrefixLength at hPrefix
  unfold Token.maxLength
  rw [Token.qualifiedLength, ← Nat.shiftLeft_add_eq_or_of_lt (by omega), Nat.shiftLeft_eq]
  omega

theorem length_nameToken {name : Chars} (hKind : kind.isQualified = true) (hFits : NameFits e name) :
    (nameToken e kind depth place name).length = e.size name / e.unitSize := by
  rw [Token.length, nameToken, if_pos hKind]
  exact qualifiedLength_mod hFits.2

/-- The token fits its record, lies inside the text, and is that of some characters of it or a piece
of a longer run. -/
structure IsPlaced (e : Encoding) (place : Nat) (text : Chars) (tokens : List Token) (t : Token) : Prop where
  lengthField_le : t.lengthField ≤ Token.maxLength
  inside : (t.offset + t.length) * e.unitSize ≤ place + e.size text
  excerpt : IsExcerpt e place text t ∨ IsPiece tokens t

theorem IsPlaced.append_right {rest : Chars} {more : List Token} (hPlaced : IsPlaced e place text tokens t) :
    IsPlaced e place (text ++ rest) (tokens ++ more) t where
  lengthField_le := hPlaced.lengthField_le
  inside := by
    rw [Encoding.size_append, ← Nat.add_assoc]
    exact Nat.le_add_right_of_le hPlaced.inside
  excerpt := hPlaced.excerpt.imp .append_right fun h => h.mono fun _ => List.mem_append_left _

theorem IsPlaced.append_left {rest : Chars} {more : List Token}
    (hPlaced : IsPlaced e (place + e.size text) rest more t) :
    IsPlaced e place (text ++ rest) (tokens ++ more) t where
  lengthField_le := hPlaced.lengthField_le
  inside := by
    rw [Encoding.size_append, ← Nat.add_assoc]
    exact hPlaced.inside
  excerpt := hPlaced.excerpt.imp .append_left fun h => h.mono fun _ => List.mem_append_right _

theorem isPlaced_name {name : Chars} (hKind : kind.isQualified = true) (hFits : NameFits e name)
    (hUnit : e.unitSize ∣ place) :
    IsPlaced e place name tokens (nameToken e kind depth place name) := by
  have hOffset : (nameToken e kind depth place name).offset * e.unitSize = place := Nat.div_mul_cancel hUnit
  have hLength : (nameToken e kind depth place name).length * e.unitSize = e.size name := by
    rw [length_nameToken hKind hFits, Nat.div_mul_cancel Encoding.unitSize_dvd_size]
  refine ⟨qualifiedLength_le hFits.1 hFits.2, ?_, .inl ⟨[], name, [], by simp, ?_, hLength⟩⟩
  · rw [Nat.add_mul, hOffset, hLength]
  · rw [hOffset, Encoding.size_nil, Nat.add_zero]

def pieceAt (e : Encoding) (kind : TokenKind) (depth : Int) (place size i : Nat) : Token :=
  ⟨kind, depth, place / e.unitSize + i * Token.maxLength, min Token.maxLength (size / e.unitSize - i * Token.maxLength)⟩

theorem mem_pieces {size : Nat} : t ∈ pieces e kind depth place size ↔
    ∃ i ≤ (size / e.unitSize - 1) / Token.maxLength, t = pieceAt e kind depth place size i := by
  simp only [pieces, pieceAt, List.mem_map, List.mem_range, Nat.lt_succ_iff, eq_comm]

theorem length_pieceAt {size i : Nat} (hKind : kind.isQualified = false) :
    (pieceAt e kind depth place size i).length = min Token.maxLength (size / e.unitSize - i * Token.maxLength) :=
  if_neg (by simp [pieceAt, hKind])

/-- A piece of a text of so many units begins and ends within it; those before the last have the greatest
length. -/
theorem piece_bounds {units i : Nat} (hi : i ≤ (units - 1) / Token.maxLength) :
    i * Token.maxLength + min Token.maxLength (units - i * Token.maxLength) ≤ units ∧
      (i + 1 ≤ (units - 1) / Token.maxLength → Token.maxLength ≤ units - i * Token.maxLength) := by
  have hStart (j : Nat) (hj : j ≤ (units - 1) / Token.maxLength) : j * Token.maxLength ≤ units - 1 :=
    Nat.le_trans (Nat.mul_le_mul_right _ hj) (Nat.div_mul_le_self _ _)
  have hHere := hStart i hi
  refine ⟨by omega, fun hMore => ?_⟩
  have hNext := hStart (i + 1) hMore
  rw [Nat.succ_mul] at hNext
  omega

theorem isPiece_pieceAt {size i : Nat} (hKind : kind.isQualified = false) (hCut : isCut kind = true)
    (hi : i + 1 ≤ (size / e.unitSize - 1) / Token.maxLength)
    (hOne : t = pieceAt e kind depth place size i ∨ t = pieceAt e kind depth place size (i + 1)) :
    IsPiece (pieces e kind depth place size) t := by
  have hSame : t.kind = kind := by
    obtain rfl | rfl := hOne <;> rfl
  refine ⟨hSame ▸ hCut, _, mem_pieces.mpr ⟨i, Nat.le_of_succ_le hi, rfl⟩, _, mem_pieces.mpr ⟨i + 1, hi, rfl⟩,
    hSame.symm, hSame.symm, ?_, ?_, hOne⟩
  · rw [length_pieceAt hKind, Nat.min_eq_left ((piece_bounds (Nat.le_of_succ_le hi)).2 hi)]
  · rw [pieceAt, pieceAt, Nat.succ_mul, ← Nat.add_assoc]

/-- Of a run that is too long for one token, the tokens come in pairs. -/
theorem isPiece_of_mem {size : Nat} (hKind : kind.isQualified = false) (hCut : isCut kind = true)
    (hLong : Token.maxLength < size / e.unitSize) (ht : t ∈ pieces e kind depth place size) :
    IsPiece (pieces e kind depth place size) t := by
  obtain ⟨i, hi, rfl⟩ := mem_pieces.mp ht
  cases i with
  | zero =>
    have hMore : 0 + 1 ≤ (size / e.unitSize - 1) / Token.maxLength := Nat.div_pos (by omega) (by decide)
    exact isPiece_pieceAt hKind hCut hMore (.inl rfl)
  | succ i => exact isPiece_pieceAt hKind hCut hi (.inr rfl)

theorem isPlaced_piece {body after : Chars} (hKind : kind.isQualified = false)
    (hFits : isCut kind = true ∨ TextFits e body) (hUnit : e.unitSize ∣ place)
    (ht : t ∈ pieces e kind depth place (e.size body)) :
    IsPlaced e place (body ++ after) (pieces e kind depth place (e.size body)) t := by
  have hPlace : place / e.unitSize * e.unitSize = place := Nat.div_mul_cancel hUnit
  have hBody : e.size body / e.unitSize * e.unitSize = e.size body := Nat.div_mul_cancel Encoding.unitSize_dvd_size
  by_cases hWhole : TextFits e body
  · rw [pieces_of_fits hWhole] at ht ⊢
    obtain rfl := List.mem_singleton.mp ht
    have hSize : (Grammar.token e kind depth place (e.size body)).length * e.unitSize = e.size body := by
      rw [Token.length, if_neg (by simp [Grammar.token, hKind])]
      exact hBody
    refine ⟨hWhole, ?_, .inl ⟨[], body, after, rfl, hPlace, hSize⟩⟩
    rw [Nat.add_mul, hSize, Encoding.size_append, ← Nat.add_assoc]
    exact Nat.le_add_right_of_le (Nat.add_le_add_right (Nat.le_of_eq hPlace) _)
  · have hPiece := isPiece_of_mem hKind (hFits.resolve_right hWhole) (Nat.lt_of_not_le hWhole) ht
    obtain ⟨i, hi, rfl⟩ := mem_pieces.mp ht
    refine ⟨Nat.min_le_left _ _, ?_, .inr hPiece⟩
    rw [length_pieceAt hKind, pieceAt, Nat.add_assoc]
    refine Nat.le_trans (Nat.mul_le_mul_right _ (Nat.add_le_add_left (piece_bounds hi).1 _)) ?_
    rw [Nat.add_mul, hPlace, hBody, Encoding.size_append, ← Nat.add_assoc]
    exact Nat.le_add_right _ _

theorem Layout.isPlaced (hLayout : Layout e place text tokens) (hUnit : e.unitSize ∣ place) (ht : t ∈ tokens) :
    IsPlaced e place text tokens t := by
  induction hLayout with
  | blank => exact (List.not_mem_nil ht).elim
  | name _ hKind hFits =>
    obtain rfl := List.mem_singleton.mp ht
    exact isPlaced_name hKind hFits hUnit
  | run _ hKind hFits => exact isPlaced_piece hKind hFits hUnit ht
  | append _ _ ih ihRest =>
    obtain hFirst | hRest := List.mem_append.mp ht
    · exact (ih hUnit hFirst).append_right
    · exact (ihRest (Nat.dvd_add hUnit Encoding.unitSize_dvd_size) hRest).append_left

def LiesWithin (first stop : Nat) (t : Token) : Prop :=
  first ≤ t.offset ∧ t.offset + t.length ≤ stop ∧ t.lengthField ≤ Token.maxLength

theorem LiesWithin.mono {first stop first' stop' : Nat} (hWithin : LiesWithin first stop t) (hFirst : first' ≤ first)
    (hStop : stop ≤ stop') : LiesWithin first' stop' t :=
  ⟨Nat.le_trans hFirst hWithin.1, Nat.le_trans hWithin.2.1 hStop, hWithin.2.2⟩

theorem units_append {text rest : Chars} : (place + e.size (text ++ rest)) / e.unitSize =
    (place + e.size text) / e.unitSize + e.size rest / e.unitSize := by
  rw [Encoding.size_append, ← Nat.add_assoc, Nat.add_div_of_dvd_left Encoding.unitSize_dvd_size]

theorem liesWithin_name {name : Chars} (hKind : kind.isQualified = true) (hFits : NameFits e name) :
    LiesWithin (place / e.unitSize) ((place + e.size name) / e.unitSize) (nameToken e kind depth place name) := by
  refine ⟨Nat.le_refl _, ?_, qualifiedLength_le hFits.1 hFits.2⟩
  rw [length_nameToken hKind hFits, Nat.add_div_of_dvd_left Encoding.unitSize_dvd_size]
  exact Nat.le_refl _

theorem liesWithin_piece {body after : Chars} (hKind : kind.isQualified = false)
    (ht : t ∈ pieces e kind depth place (e.size body)) :
    LiesWithin (place / e.unitSize) ((place + e.size (body ++ after)) / e.unitSize) t := by
  obtain ⟨i, hi, rfl⟩ := mem_pieces.mp ht
  refine ⟨Nat.le_add_right _ _, ?_, Nat.min_le_left _ _⟩
  rw [length_pieceAt hKind, units_append, Nat.add_div_of_dvd_left Encoding.unitSize_dvd_size, pieceAt, Nat.add_assoc]
  exact Nat.le_add_right_of_le (Nat.add_le_add_left (piece_bounds hi).1 _)

/-- Each piece of a run ends before the next begins. -/
theorem pairwise_pieces {size : Nat} (hKind : kind.isQualified = false) :
    (pieces e kind depth place size).Pairwise fun t u => t.offset + t.length ≤ u.offset := by
  refine List.pairwise_map.mpr (List.pairwise_lt_range.imp fun {i j} hLess => ?_)
  have hLength : (pieceAt e kind depth place size i).length = _ := length_pieceAt hKind
  have hNext : (i + 1) * Token.maxLength ≤ j * Token.maxLength := Nat.mul_le_mul_right _ hLess
  have hShort := Nat.min_le_left Token.maxLength (size / e.unitSize - i * Token.maxLength)
  unfold pieceAt at hLength
  rw [Nat.succ_mul] at hNext
  simp only [hLength]
  omega

theorem Layout.liesWithin (hLayout : Layout e place text tokens) :
    ∀ t ∈ tokens, LiesWithin (place / e.unitSize) ((place + e.size text) / e.unitSize) t := by
  induction hLayout with
  | blank => exact nofun
  | name _ hKind hFits => exact fun t ht => List.mem_singleton.mp ht ▸ liesWithin_name hKind hFits
  | run _ hKind _ => exact fun t ht => liesWithin_piece hKind ht
  | append _ _ ih ihRest =>
    intro t ht
    have hMiddle {first last : Nat} : first / e.unitSize ≤ (first + last) / e.unitSize :=
      Nat.div_le_div_right (Nat.le_add_right _ _)
    rw [Encoding.size_append, ← Nat.add_assoc]
    rcases List.mem_append.mp ht with ht | ht
    · exact (ih t ht).mono (Nat.le_refl _) hMiddle
    · exact (ihRest t ht).mono hMiddle (Nat.le_refl _)

/-- Tokens come in the order of their texts and do not overlap. -/
theorem Layout.pairwise (hLayout : Layout e place text tokens) :
    tokens.Pairwise fun t u => t.offset + t.length ≤ u.offset := by
  induction hLayout with
  | blank => exact .nil
  | name => exact List.pairwise_singleton _ _
  | run _ hKind _ => exact pairwise_pieces hKind
  | append hText hRest ih ihRest =>
    refine List.pairwise_append.mpr ⟨ih, ihRest, fun t ht u hu => ?_⟩
    exact Nat.le_trans (hText.liesWithin t ht).2.1 (hRest.liesWithin u hu).1

/-- The token marks characters that stand at a place; the first of them are its prefix, if it is a name. -/
structure Marks (e : Encoding) (place : Nat) (inner stem : Chars) (t : Token) : Prop where
  offset : t.offset * e.unitSize = place
  length : t.length * e.unitSize = e.size inner
  prefixLength : t.prefixLength * e.unitSize = e.size stem

structure SameExcerpt (e e' : Encoding) (place place' : Nat) (text : Chars) (t t' : Token) : Prop where
  kind : t'.kind = t.kind
  depth : t'.depth = t.depth
  marks : ∃ before inner after stem, text = before ++ (inner ++ after) ∧ stem <+: inner ∧
    Marks e (place + e.size before) inner stem t ∧ Marks e' (place' + e'.size before) inner stem t'

variable {e' : Encoding} {place' : Nat}

theorem SameExcerpt.append_right {t' : Token} {rest : Chars} (hSame : SameExcerpt e e' place place' text t t') :
    SameExcerpt e e' place place' (text ++ rest) t t' := by
  obtain ⟨hKind, hDepth, before, inner, after, stem, rfl, hMarks⟩ := hSame
  exact ⟨hKind, hDepth, before, inner, after ++ rest, stem, by simp, hMarks⟩

theorem SameExcerpt.append_left {t' : Token} {rest : Chars}
    (hSame : SameExcerpt e e' (place + e.size text) (place' + e'.size text) rest t t') :
    SameExcerpt e e' place place' (text ++ rest) t t' := by
  obtain ⟨hKind, hDepth, before, inner, after, stem, rfl, hStem, hMarks, hMarks'⟩ := hSame
  rw [Nat.add_assoc, ← Encoding.size_append] at hMarks hMarks'
  exact ⟨hKind, hDepth, text ++ before, inner, after, stem, by simp, hStem, hMarks, hMarks'⟩

theorem marks_name {name : Chars} (hKind : kind.isQualified = true) (hFits : NameFits e name)
    (hUnit : e.unitSize ∣ place) : Marks e place name (prefixOf name) (nameToken e kind depth place name) where
  offset := Nat.div_mul_cancel hUnit
  length := by
    rw [length_nameToken hKind hFits, Nat.div_mul_cancel Encoding.unitSize_dvd_size]
  prefixLength := by
    rw [Token.prefixLength, nameToken, if_pos hKind, qualifiedLength_div hFits.2,
      Nat.div_mul_cancel Encoding.unitSize_dvd_size]

theorem marks_token {body : Chars} (hKind : kind.isQualified = false) (hUnit : e.unitSize ∣ place) :
    Marks e place body [] (token e kind depth place (e.size body)) where
  offset := Nat.div_mul_cancel hUnit
  length := by
    rw [Token.length, if_neg (by simp [token, hKind])]
    exact Nat.div_mul_cancel Encoding.unitSize_dvd_size
  prefixLength := by
    rw [Token.prefixLength, if_neg (by simp [token, hKind]), Nat.zero_mul]
    rfl

/-- Unless runs are cut, which they would be at different characters, twins have the same excerpts. -/
theorem Twin.sameExcerpts {P : Chars → Prop} {tokens' : List Token}
    (hTwin : Twin P e e' place place' text tokens tokens') (hWhole : ∀ body, P body → TextFits e body ∧ TextFits e' body)
    (hUnit : e.unitSize ∣ place) (hUnit' : e'.unitSize ∣ place') :
    List.Forall₂ (SameExcerpt e e' place place' text) tokens tokens' := by
  induction hTwin with
  | blank => exact .nil
  | @name kind depth place place' name hSome hKind hFits hFits' =>
    refine .cons ⟨rfl, rfl, [], name, [], prefixOf name, by simp, prefix_prefixOf, ?_, ?_⟩ .nil
    · exact marks_name hKind hFits hUnit
    · exact marks_name hKind hFits' hUnit'
  | @run kind depth place place' body after hSome hKind hShort =>
    obtain ⟨hFits, hFits'⟩ := hShort.elim (fun h => hWhole body h.2) id
    rw [pieces_of_fits hFits, pieces_of_fits hFits']
    refine .cons ⟨rfl, rfl, [], body, after, [], rfl, List.nil_prefix, ?_, ?_⟩ .nil
    · exact marks_token hKind hUnit
    · exact marks_token hKind hUnit'
  | append _ _ ih ihRest =>
    have hRest := ihRest (Nat.dvd_add hUnit Encoding.unitSize_dvd_size) (Nat.dvd_add hUnit' Encoding.unitSize_dvd_size)
    refine List.rel_append ?_ ?_
    · exact (ih hUnit hUnit').imp fun _ _ h => h.append_right
    · exact hRest.imp fun _ _ h => h.append_left

end

end XmlIndex.Grammar
