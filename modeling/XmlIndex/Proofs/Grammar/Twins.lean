import XmlIndex.Proofs.Grammar.Tokens
import XmlIndex.Proofs.Lexer.Writing
import XmlIndex.Proofs.Scan.Recoding

/-! # The tokens of a text in two encodings

Wherever a document begins and whatever its encoding is, its tokens come from the same parts in the same order.
So two streams of tokens of one document can be laid out along its text side by side.
-/
namespace XmlIndex.Grammar
set_option autoImplicit false

section
variable (e : Encoding) (P : Chars → Prop)

def Markup.Lengths : Markup → Prop
  | .comment body | .section body => P body
  | m => m.Fits e

/-- The same of content, however deep its elements lie; `P` is asked of runs that are tokens alone. -/
def Content.Lengths (recordSpace : Bool) : (first : Bool) → Content → Prop
  | first, .last run => runIsToken recordSpace first run = true → P run
  | _, .markup run m rest =>
    (runIsToken recordSpace false run = true → P run) ∧ m.Lengths e P ∧ Lengths recordSpace false rest
  | _, .empty run tag rest =>
    (runIsToken recordSpace false run = true → P run) ∧ tag.Fits e ∧ Lengths recordSpace false rest
  | _, .element run tag inside _ rest =>
    (runIsToken recordSpace false run = true → P run) ∧ tag.Fits e ∧ Lengths recordSpace true inside ∧
      Lengths recordSpace false rest

structure Root.Lengths (recordSpace : Bool) (r : Root) : Prop where
  tag : r.tag.Fits e
  body : ∀ inside space, r.body = some (inside, space) → inside.Lengths e P recordSpace true

structure Document.Lengths (recordSpace : Bool) (d : Document) : Prop where
  prolog : ∀ item ∈ d.prolog, item.1.Lengths e P
  root : d.root.Lengths e P recordSpace
  epilog : ∀ item ∈ d.epilog.items, item.2.Lengths e P

end

section
variable {e : Encoding} {P : Chars → Prop} {recordSpace : Bool}

theorem Markup.Fits.lengths {m : Markup} (hFits : m.Fits e) : m.Lengths e fun _ => True := by
  cases m with
  | comment body => trivial
  | «section» body => trivial
  | instruction target data => exact hFits
  | documentType body => exact hFits

theorem Content.Fits.lengths {x : Content} {level : Nat} {first : Bool} (hFits : x.Fits e level) :
    x.Lengths e (fun _ => True) recordSpace first := by
  induction x generalizing level first with
  | last run => exact fun _ => trivial
  | markup run m rest ih => exact ⟨fun _ => trivial, hFits.1.lengths, ih hFits.2⟩
  | empty run tag rest ih => exact ⟨fun _ => trivial, hFits.2.1, ih hFits.2.2⟩
  | element run tag inside space rest ihInside ihRest =>
    obtain ⟨-, hTag, hInside, hRest⟩ := hFits
    exact ⟨fun _ => trivial, hTag, ihInside hInside, ihRest hRest⟩

theorem Document.Fits.lengths {d : Document} (hFits : d.Fits e) : d.Lengths e (fun _ => True) recordSpace where
  prolog := fun item h => (hFits.prolog item h).lengths
  root := ⟨hFits.root.tag, fun inside space h => (hFits.root.body inside space h).lengths⟩
  epilog := fun item h => (hFits.epilog item h).lengths

end

section
variable {e e' : Encoding} {P P' : Chars → Prop} {recordSpace : Bool}

theorem TextFits.mono {text : Chars} (hFits : TextFits e text) (hUnits : e.NoLonger e') : TextFits e' text :=
  Nat.le_trans (hUnits text) hFits

theorem NameFits.mono {name : Chars} (hFits : NameFits e name) (hUnits : e.NoLonger e') : NameFits e' name :=
  ⟨Nat.le_trans (hUnits _) hFits.1, Nat.le_trans (hUnits _) hFits.2⟩

theorem Tag.Fits.mono {t : Tag} (hFits : t.Fits e) (hUnits : e.NoLonger e') : t.Fits e' where
  name := hFits.name.mono hUnits
  attributes := fun a ha => ⟨(hFits.attributes a ha).name.mono hUnits, (hFits.attributes a ha).value.mono hUnits⟩

section
variable (hUnits : e.NoLonger e') (hRuns : ∀ body, P body → P' body)
include hUnits hRuns

theorem Markup.Lengths.mono {m : Markup} (hLengths : m.Lengths e P) : m.Lengths e' P' := by
  cases m with
  | comment body => exact hRuns body hLengths
  | «section» body => exact hRuns body hLengths
  | documentType body => exact TextFits.mono hLengths hUnits
  | instruction target data =>
    cases data with
    | none => exact TextFits.mono hLengths hUnits
    | some data => exact ⟨TextFits.mono hLengths.1 hUnits, TextFits.mono hLengths.2 hUnits⟩

theorem Content.Lengths.mono {x : Content} {first : Bool} (hLengths : x.Lengths e P recordSpace first) :
    x.Lengths e' P' recordSpace first := by
  induction x generalizing first with
  | last run => exact fun h => hRuns run (hLengths h)
  | markup run m rest ih =>
    obtain ⟨hRun, hMarkup, hRest⟩ := hLengths
    exact ⟨fun h => hRuns run (hRun h), hMarkup.mono hUnits hRuns, ih hRest⟩
  | empty run tag rest ih =>
    obtain ⟨hRun, hTag, hRest⟩ := hLengths
    exact ⟨fun h => hRuns run (hRun h), hTag.mono hUnits, ih hRest⟩
  | element run tag inside space rest ihInside ihRest =>
    obtain ⟨hRun, hTag, hInside, hRest⟩ := hLengths
    exact ⟨fun h => hRuns run (hRun h), hTag.mono hUnits, ihInside hInside, ihRest hRest⟩

theorem Document.Lengths.mono {d : Document} (hLengths : d.Lengths e P recordSpace) : d.Lengths e' P' recordSpace where
  prolog := fun item h => (hLengths.prolog item h).mono hUnits hRuns
  root :=
    { tag := hLengths.root.tag.mono hUnits
      body := fun inside space h => (hLengths.root.body inside space h).mono hUnits hRuns }
  epilog := fun item h => (hLengths.epilog item h).mono hUnits hRuns

end

theorem Markup.Lengths.fits {m : Markup} (hLengths : m.Lengths e P) : m.Fits e := by
  cases m with
  | comment body => trivial
  | «section» body => trivial
  | instruction target data => exact hLengths
  | documentType body => exact hLengths

/-- How deep elements lie is the same in all encodings. -/
theorem Content.Fits.of_lengths {x : Content} {level : Nat} {first : Bool} (hFits : x.Fits e level)
    (hLengths : x.Lengths e' P recordSpace first) : x.Fits e' level := by
  induction x generalizing level first with
  | last run => trivial
  | markup run m rest ih => exact ⟨hLengths.2.1.fits, ih hFits.2 hLengths.2.2⟩
  | empty run tag rest ih => exact ⟨hFits.1, hLengths.2.1, ih hFits.2.2 hLengths.2.2⟩
  | element run tag inside space rest ihInside ihRest =>
    obtain ⟨hLevel, -, hInside, hRest⟩ := hFits
    obtain ⟨-, hTag, hInsideLengths, hRestLengths⟩ := hLengths
    exact ⟨hLevel, hTag, ihInside hInside hInsideLengths, ihRest hRest hRestLengths⟩

theorem Document.Fits.of_lengths {d : Document} (hFits : d.Fits e) (hLengths : d.Lengths e' P recordSpace) :
    d.Fits e' where
  prolog := fun item h => (hLengths.prolog item h).fits
  root :=
    { tag := hLengths.root.tag
      body := fun inside space h => (hFits.root.body inside space h).of_lengths (hLengths.root.body inside space h) }
  epilog := fun item h => (hLengths.epilog item h).fits

end

theorem prefix_prefixOf {name : Chars} : prefixOf name <+: name := by
  induction name with
  | nil => exact List.prefix_rfl
  | cons ch rest ih =>
    rw [prefixOf]
    split
    · exact List.cons_prefix_cons.mpr ⟨rfl, ih⟩
    · exact List.nil_prefix

section
variable {e : Encoding} {text : Chars}

theorem TextFits.of_short (hShort : e.size text ≤ Token.maxPrefixLength) : TextFits e text :=
  Nat.le_trans (Nat.div_le_self _ _) (Nat.le_trans hShort (by decide))

-- The length of a prefix has the tightest bound, so a text within it fits anywhere.
theorem NameFits.of_short (hShort : e.size text ≤ Token.maxPrefixLength) : NameFits e text := by
  obtain ⟨rest, hName⟩ := @prefix_prefixOf text
  have hPrefix : e.size (prefixOf text) ≤ e.size text := by
    rw [← congrArg e.size hName, Encoding.size_append]
    exact Nat.le_add_right _ _
  exact ⟨Nat.le_trans (Nat.div_le_self _ _) (Nat.le_trans hPrefix hShort),
    Nat.le_trans (Nat.div_le_self _ _) (Nat.le_trans hShort (by decide))⟩

theorem size_le_of_mem_flatMap {α : Type} {items : List α} {f : α → Chars} {item : α} (hItem : item ∈ items) :
    e.size (f item) ≤ e.size (items.flatMap f) := by
  obtain ⟨before, after, rfl⟩ := List.append_of_mem hItem
  simp only [List.flatMap_append, List.flatMap_cons, Encoding.size_append]
  omega

theorem Tag.Fits.of_short {t : Tag} (hShort : e.size t.text ≤ Token.maxPrefixLength) : t.Fits e := by
  simp only [Tag.text, Encoding.size_append] at hShort
  refine ⟨.of_short (by omega), fun a ha => ?_⟩
  have hAttribute : e.size a.text ≤ e.size (Tag.attributeText t.attributes) := size_le_of_mem_flatMap ha
  simp only [Attribute.text, Binding.text, Encoding.size_append] at hAttribute
  exact ⟨.of_short (by omega), .of_short (by omega)⟩

theorem Markup.Lengths.of_short {m : Markup} (hShort : e.size m.inner ≤ Token.maxPrefixLength) :
    m.Lengths e (TextFits e) := by
  unfold Markup.inner at hShort
  split at hShort <;> simp only [Encoding.size_append, Encoding.size_cons] at hShort
  · exact TextFits.of_short (by omega)
  · exact TextFits.of_short (by omega)
  · exact TextFits.of_short (by omega)
  · exact ⟨.of_short (by omega), .of_short (by omega)⟩
  · exact TextFits.of_short (by omega)

theorem Content.Lengths.of_short {x : Content} {recordSpace first : Bool}
    (hShort : e.size x.text ≤ Token.maxPrefixLength) : x.Lengths e (TextFits e) recordSpace first := by
  induction x generalizing first with
  | last run => exact fun _ => .of_short hShort
  | markup run m rest ih =>
    simp only [Content.text, Encoding.size_append, Encoding.size_cons] at hShort
    exact ⟨fun _ => .of_short (by omega), .of_short (by omega), ih (by omega)⟩
  | empty run tag rest ih =>
    simp only [Content.text, Encoding.size_append, Encoding.size_cons] at hShort
    exact ⟨fun _ => .of_short (by omega), .of_short (by omega), ih (by omega)⟩
  | element run tag inside space rest ihInside ihRest =>
    simp only [Content.text, Encoding.size_append, Encoding.size_cons] at hShort
    exact ⟨fun _ => .of_short (by omega), .of_short (by omega), ihInside (by omega), ihRest (by omega)⟩

theorem Document.Lengths.of_short {d : Document} {recordSpace : Bool}
    (hShort : e.size d.text ≤ Token.maxPrefixLength) : d.Lengths e (TextFits e) recordSpace := by
  simp only [Document.text, Document.upToRoot, Root.text, Epilog.text, Encoding.size_append, Encoding.size_cons]
    at hShort
  refine ⟨fun item hItem => .of_short ?_, ⟨.of_short (by omega), fun inside space hBody => .of_short ?_⟩,
    fun item hItem => .of_short ?_⟩
  · have hPart := @size_le_of_mem_flatMap e _ _ (fun item : Markup × Chars =>
      item.1.inner ++ (item.2 ++ [CodePoint.lessThan])) _ hItem
    rw [Encoding.size_append] at hPart
    unfold prologText at hShort
    omega
  · rw [hBody] at hShort
    simp only [Root.bodyText, Encoding.size_append, Encoding.size_cons] at hShort
    omega
  · have hPart := @size_le_of_mem_flatMap e _ _ (fun item : Chars × Markup =>
      item.1 ++ CodePoint.lessThan :: item.2.inner) _ hItem
    rw [Encoding.size_append, Encoding.size_cons] at hPart
    unfold Epilog.itemsText at hShort
    omega

end

def isCut : TokenKind → Bool
  | .characterData | .comment | .cdata => true
  | _ => false

/-- The tokens of a text that begins at `place` in one encoding and at `place'` in another. -/
inductive Twin (P : Chars → Prop) (e e' : Encoding) :
    (place place' : Nat) → Chars → (tokens tokens' : List Token) → Prop where
  | blank {place place' : Nat} {text : Chars} : Twin P e e' place place' text [] []
  | name {kind : TokenKind} {depth : Int} {place place' : Nat} {name : Chars} :
      name ≠ [] → kind.isQualified = true → NameFits e name → NameFits e' name →
      Twin P e e' place place' name [nameToken e kind depth place name] [nameToken e' kind depth place' name]
  | run {kind : TokenKind} {depth : Int} {place place' : Nat} {body after : Chars} :
      body ++ after ≠ [] → kind.isQualified = false →
      isCut kind = true ∧ P body ∨ TextFits e body ∧ TextFits e' body →
      Twin P e e' place place' (body ++ after) (pieces e kind depth place (e.size body))
        (pieces e' kind depth place' (e'.size body))
  | append {place place' : Nat} {text rest : Chars} {tokens tokens' more more' : List Token} :
      Twin P e e' place place' text tokens tokens' →
      Twin P e e' (place + e.size text) (place' + e'.size text) rest more more' →
      Twin P e e' place place' (text ++ rest) (tokens ++ more) (tokens' ++ more')

variable {P : Chars → Prop} {e e' : Encoding} {place place' : Nat} {depth : Int} {kind : TokenKind}

theorem pieces_of_fits {size : Nat} (hFits : size / e.unitSize ≤ Token.maxLength) :
    pieces e kind depth place size = [token e kind depth place size] :=
  Draft.cut_of_le hFits

theorem Twin.token {body after : Chars} (hSome : body ++ after ≠ []) (hKind : kind.isQualified = false)
    (hFits : TextFits e body) (hFits' : TextFits e' body) :
    Twin P e e' place place' (body ++ after) [Grammar.token e kind depth place (e.size body)]
      [Grammar.token e' kind depth place' (e'.size body)] := by
  rw [← pieces_of_fits hFits, ← pieces_of_fits hFits']
  exact .run hSome hKind (.inr ⟨hFits, hFits'⟩)

/-- Text without tokens before a part that has some. -/
theorem Twin.after {text rest : Chars} {tokens tokens' : List Token} {later later' : Nat}
    (hLater : later = place + e.size text) (hLater' : later' = place' + e'.size text)
    (hRest : Twin P e e' later later' rest tokens tokens') :
    Twin P e e' place place' (text ++ rest) tokens tokens' := by
  subst hLater hLater'
  exact .append .blank hRest

/-- Text without tokens after a part that has some. -/
theorem Twin.before {text rest : Chars} {tokens tokens' : List Token}
    (hText : Twin P e e' place place' text tokens tokens') :
    Twin P e e' place place' (text ++ rest) tokens tokens' := by
  rw [← List.append_nil tokens, ← List.append_nil tokens']
  exact hText.append .blank

theorem Attribute.twin {a : Attribute} (hWell : a.WellFormed) (hFits : a.Fits e) (hFits' : a.Fits e') :
    Twin P e e' place place' a.text (a.tokens e depth place) (a.tokens e' depth place') := by
  have hKind : (attributeKind a.name).isQualified = true := by
    unfold attributeKind
    split <;> rfl
  have hText : a.text = a.space ++ (a.name ++ (a.binding.lead ++ (a.binding.value ++ [a.binding.quote]))) := rfl
  rw [hText]
  refine .after rfl rfl (Twin.append (.name hWell.name.ne_nil hKind hFits.name hFits'.name)
    (.after ?_ ?_ (.token ?_ rfl hFits.value hFits'.value)))
  · simp [Attribute.valuePlace, Nat.add_assoc]
  · simp [Attribute.valuePlace, Nat.add_assoc]
  · simp

theorem Tag.twin_attributes {attributes : List Attribute} (hWell : ∀ a ∈ attributes, a.WellFormed)
    (hFits : ∀ a ∈ attributes, a.Fits e) (hFits' : ∀ a ∈ attributes, a.Fits e') :
    Twin P e e' place place' (attributeText attributes) (attributeTokens e depth place attributes)
      (attributeTokens e' depth place' attributes) := by
  induction attributes generalizing place place' with
  | nil => exact .blank
  | cons a rest ih =>
    obtain ⟨ha, hRest⟩ := List.forall_mem_cons.mp hWell
    obtain ⟨haFits, hRestFits⟩ := List.forall_mem_cons.mp hFits
    obtain ⟨haFits', hRestFits'⟩ := List.forall_mem_cons.mp hFits'
    exact (a.twin ha haFits haFits').append (ih hRest hRestFits hRestFits')

theorem Tag.twin {t : Tag} (hWell : t.WellFormed) (hFits : t.Fits e) (hFits' : t.Fits e') :
    Twin P e e' place place' t.text (t.tokens e depth place) (t.tokens e' depth place') :=
  Twin.append (.name hWell.name.ne_nil rfl hFits.name hFits'.name)
    (Twin.before (twin_attributes hWell.attributes hFits.attributes hFits'.attributes))

theorem Markup.twin {m : Markup} (hWell : m.WellFormed) (hLengths : m.Lengths e P) (hLengths' : m.Lengths e' P) :
    Twin P e e' place place' m.inner (m.tokens e depth place) (m.tokens e' depth place') := by
  cases m with
  | comment body => exact .after rfl rfl (.run (by simp) rfl (.inl ⟨rfl, hLengths⟩))
  | «section» body =>
    exact @Twin.after _ _ _ _ _ (CodePoint.bang :: CodePoint.leftBracket :: CodePoint.ofText "CDATA[") _ _ _ _ _ rfl
      rfl (.run (by simp) rfl (.inl ⟨rfl, hLengths⟩))
  | documentType body =>
    exact @Twin.after _ _ _ _ _ (CodePoint.bang :: 0x44 :: CodePoint.ofText "OCTYPE") _ _ _ _ _ rfl rfl
      (.token (by simp) rfl hLengths hLengths')
  | instruction target data =>
    have hTarget (place place' : Nat) (hFits : TextFits e target) (hFits' : TextFits e' target)
        (hName : IsName target) :
        Twin P e e' place place' target [token e .instructionTarget depth place (e.size target)]
          [token e' .instructionTarget depth place' (e'.size target)] := by
      have hToken := @Twin.token P e e' place place' depth .instructionTarget target []
        (by simpa using hName.ne_nil) rfl hFits hFits'
      rwa [List.append_nil] at hToken
    cases data with
    | none =>
      -- The data is empty, right after the target.
      have hData := @Twin.token P e e' (place + e.size [CodePoint.question] + e.size target)
        (place' + e'.size [CodePoint.question] + e'.size target) depth .instructionData []
        [CodePoint.question, CodePoint.greaterThan] (by simp) rfl (by simp [TextFits]) (by simp [TextFits])
      exact @Twin.after _ _ _ _ _ [CodePoint.question] _ _ _ _ _ rfl rfl
        ((hTarget _ _ hLengths hLengths' hWell.1).append hData)
    | some data =>
      obtain ⟨space, data⟩ := data
      refine @Twin.after _ _ _ _ _ [CodePoint.question] _ _ _ _ _ rfl rfl
        ((hTarget _ _ hLengths.1 hLengths'.1 hWell.1.1).append ?_)
      refine @Twin.after _ _ _ _ _ [space] _ _ _ _ _ ?_ ?_ (.token (by simp) rfl hLengths.2 hLengths'.2)
      · rw [Encoding.size_append, Nat.add_assoc, Nat.add_assoc, Nat.add_assoc]
      · rw [Encoding.size_append, Nat.add_assoc, Nat.add_assoc, Nat.add_assoc]

theorem twin_runTokens {recordSpace whole : Bool} {run : Chars}
    (hRun : runIsToken recordSpace whole run = true → P run) :
    Twin P e e' place place' (run ++ [CodePoint.lessThan]) (runTokens e recordSpace whole depth place run)
      (runTokens e' recordSpace whole depth place' run) := by
  unfold runTokens
  split
  · exact .run (by simp) rfl (.inl ⟨rfl, hRun ‹_›⟩)
  · exact .blank

theorem Content.twin {recordSpace first : Bool} {x : Content} (hWell : x.WellFormed)
    (hLengths : x.Lengths e P recordSpace first) (hLengths' : x.Lengths e' P recordSpace first) :
    Twin P e e' place place' (x.text ++ [CodePoint.lessThan]) (x.tokens e recordSpace depth first place)
      (x.tokens e' recordSpace depth first place') := by
  induction x generalizing place place' depth first with
  | last run => exact twin_runTokens hLengths
  | markup run m rest ih =>
    obtain ⟨-, hm, -, hRest⟩ := hWell
    obtain ⟨hRun, hMarkup, hLater⟩ := hLengths
    obtain ⟨-, hMarkup', hLater'⟩ := hLengths'
    have hText : (Content.markup run m rest).text ++ [CodePoint.lessThan] =
        (run ++ [CodePoint.lessThan]) ++ (m.inner ++ (rest.text ++ [CodePoint.lessThan])) := by
      simp [Content.text]
    rw [hText]
    exact (twin_runTokens hRun).append ((m.twin hm hMarkup hMarkup').append (ih hRest hLater hLater'))
  | empty run tag rest ih =>
    obtain ⟨-, hTag, hRest⟩ := hWell
    obtain ⟨hRun, hFits, hLater⟩ := hLengths
    obtain ⟨-, hFits', hLater'⟩ := hLengths'
    have hText : (Content.empty run tag rest).text ++ [CodePoint.lessThan] = (run ++ [CodePoint.lessThan]) ++
        ((tag.text ++ [CodePoint.slash, CodePoint.greaterThan]) ++ (rest.text ++ [CodePoint.lessThan])) := by
      simp [Content.text]
    rw [hText]
    exact (twin_runTokens hRun).append ((tag.twin hTag hFits hFits').before.append (ih hRest hLater hLater'))
  | element run tag inside space rest ihInside ihRest =>
    obtain ⟨-, hTag, hInside, -, hRest⟩ := hWell
    obtain ⟨hRun, hFits, hBody, hLater⟩ := hLengths
    obtain ⟨-, hFits', hBody', hLater'⟩ := hLengths'
    have hText : (Content.element run tag inside space rest).text ++ [CodePoint.lessThan] =
        (run ++ [CodePoint.lessThan]) ++ ((tag.text ++ [CodePoint.greaterThan]) ++
          ((inside.text ++ [CodePoint.lessThan]) ++ (endTag tag.name space ++ (rest.text ++ [CodePoint.lessThan])))) := by
      simp [Content.text]
    rw [hText]
    refine (twin_runTokens hRun).append ((tag.twin hTag hFits hFits').before.append
      ((ihInside hInside hBody hBody').append (.after ?_ ?_ (ihRest hRest hLater hLater'))))
    · simp [Nat.add_assoc]
    · simp [Nat.add_assoc]

theorem Root.twin {recordSpace : Bool} {r : Root} (hWell : r.WellFormed) (hLengths : r.Lengths e P recordSpace)
    (hLengths' : r.Lengths e' P recordSpace) :
    Twin P e e' place place' r.text (r.tokens e recordSpace place) (r.tokens e' recordSpace place') := by
  obtain ⟨tag, body⟩ := r
  have hTag {depth : Int} {place place' : Nat} :=
    @Tag.twin P e e' place place' depth tag hWell.tag hLengths.tag hLengths'.tag
  cases body with
  | none => exact hTag.append .blank
  | some body =>
    obtain ⟨inside, space⟩ := body
    have hInside := (hWell.body inside space rfl).1
    have hText : (Root.mk tag (some (inside, space))).text = (tag.text ++ [CodePoint.greaterThan]) ++
        ((inside.text ++ [CodePoint.lessThan]) ++ endTag tag.name space) := by
      simp [Root.text, Root.bodyText]
    rw [hText]
    exact hTag.before.append
      (inside.twin hInside (hLengths.body inside space rfl) (hLengths'.body inside space rfl)).before

theorem twin_prolog {items : List (Markup × Chars)} (hWell : ∀ item ∈ items, item.1.WellFormed)
    (hLengths : ∀ item ∈ items, item.1.Lengths e P) (hLengths' : ∀ item ∈ items, item.1.Lengths e' P) :
    Twin P e e' place place' (prologText items) (prologTokens e place items) (prologTokens e' place' items) := by
  induction items generalizing place place' with
  | nil => exact .blank
  | cons item items ih =>
    obtain ⟨m, space⟩ := item
    obtain ⟨hm, hRest⟩ := List.forall_mem_cons.mp hWell
    obtain ⟨hMarkup, hLater⟩ := List.forall_mem_cons.mp hLengths
    obtain ⟨hMarkup', hLater'⟩ := List.forall_mem_cons.mp hLengths'
    exact (m.twin hm hMarkup hMarkup').before.append (ih hRest hLater hLater')

theorem Epilog.twin {items : List (Chars × Markup)} (hWell : ∀ item ∈ items, item.2.WellFormed)
    (hLengths : ∀ item ∈ items, item.2.Lengths e P) (hLengths' : ∀ item ∈ items, item.2.Lengths e' P) :
    Twin P e e' place place' (itemsText items) (Epilog.tokens e place items) (Epilog.tokens e' place' items) := by
  induction items generalizing place place' with
  | nil => exact .blank
  | cons item items ih =>
    obtain ⟨space, m⟩ := item
    obtain ⟨hm, hRest⟩ := List.forall_mem_cons.mp hWell
    obtain ⟨hMarkup, hLater⟩ := List.forall_mem_cons.mp hLengths
    obtain ⟨hMarkup', hLater'⟩ := List.forall_mem_cons.mp hLengths'
    have hText : itemsText ((space, m) :: items) =
        (space ++ [CodePoint.lessThan]) ++ (m.inner ++ itemsText items) := by
      simp [itemsText]
    rw [hText]
    exact .after rfl rfl ((m.twin hm hMarkup hMarkup').append (ih hRest hLater hLater'))

/-- By one induction over the tree, whatever the encodings are. -/
theorem Document.twin_body {recordSpace : Bool} {d : Document} (hWell : d.BodyWellFormed)
    (hLengths : d.Lengths e P recordSpace) (hLengths' : d.Lengths e' P recordSpace) :
    Twin P e e' place place' (prologText d.prolog ++ (d.root.text ++ d.epilog.text))
      (d.bodyTokens e recordSpace place) (d.bodyTokens e' recordSpace place') :=
  (twin_prolog (fun item h => (hWell.prolog.wellFormed item h).1) hLengths.prolog hLengths'.prolog).append
    ((d.root.twin hWell.root hLengths.root hLengths'.root).append
      (Epilog.twin (fun item h => (hWell.epilog.items item h).2.1) hLengths.epilog hLengths'.epilog).before)

end XmlIndex.Grammar
