import XmlIndex.Proofs.Scan.Languages

/-! # References in values and in text

A reference is accepted up to the first `;`. Inside values and text the automaton of references
runs as a part of another one, which goes on where it has accepted.
-/
namespace XmlIndex
set_option autoImplicit false
open Grammar

def Reference.delimiters : Chars :=
  [CodePoint.semicolon, CodePoint.rightBracket, CodePoint.lessThan]

theorem Reference.notMem_delimiters_iff {ch : Nat} :
    ch ∉ delimiters ↔ ch ≠ 0x3B ∧ ch ≠ 0x5D ∧ ch ≠ 0x3C := by
  simp [delimiters]

structure Reference.IsInner (ch : CodePoint) : Prop where
  isValid : CodePoint.isValid ch = true
  notMem : ch ∉ Reference.delimiters

namespace EntityName

/-- Names are short, and of characters that a reference may hold after its first. -/
theorem table_names : (table.all fun entry => decide (entry.1.toList.length ≤ 9) &&
    entry.1.toList.all fun ch => CodePoint.isValid ch.toNat &&
      !(CodePoint.hash :: Reference.delimiters).contains ch.toNat) = true := by
  decide +kernel

theorem names_of_codePoint? {name : String} {c : Nat} (hFound : codePoint? name = some c) :
    name.toList.length ≤ 9 ∧ ∀ ch ∈ name.toList, CodePoint.isValid ch.toNat = true ∧
      ch.toNat ∉ CodePoint.hash :: Reference.delimiters := by
  obtain ⟨before, after, hTable, -⟩ := List.lookup_eq_some_iff.mp hFound
  have hName := List.all_eq_true.mp table_names (name, c)
    (hTable ▸ List.mem_append_right _ List.mem_cons_self)
  simpa using hName

theorem toNat_charOfNat (n : Nat) : (Char.ofNat n).toNat = if n.isValidChar then n else 0 := by
  by_cases hValid : n.isValidChar
  · rw [if_pos hValid, Char.ofNat, dif_pos hValid]
    rfl
  · rw [if_neg hValid, Char.ofNat, dif_neg hValid]
    rfl

/-- A code point that stands for no character becomes the null character, which no name holds. -/
theorem chars_of_codePoint? {name : Chars} {c : Nat}
    (hFound : codePoint? (String.ofList (name.map Char.ofNat)) = some c) :
    name.length ≤ 9 ∧ ∀ ch ∈ name, Reference.IsInner ch ∧ ch ≠ CodePoint.hash := by
  obtain ⟨hLength, hChars⟩ := names_of_codePoint? hFound
  rw [String.toList_ofList] at hLength hChars
  refine ⟨by simpa using hLength, fun ch hch => ?_⟩
  obtain ⟨hValid, hOther⟩ := hChars _ (List.mem_map_of_mem hch)
  have hSame : (Char.ofNat ch).toNat = ch := by
    rw [toNat_charOfNat] at hValid ⊢
    split
    · rfl
    · rw [if_neg ‹_›] at hValid
      cases hValid
  rw [hSame] at hValid hOther
  rw [List.mem_cons, not_or] at hOther
  exact ⟨⟨hValid, hOther.2⟩, hOther.1⟩

end EntityName

namespace Reference

theorem isInner_of_hexDigit? {ch digit : Nat} (hDigit : hexDigit? ch = some digit) : IsInner ch := by
  have hRange : 0x30 ≤ ch ∧ ch ≤ 0x39 ∨ 0x41 ≤ ch ∧ ch ≤ 0x46 ∨ 0x61 ≤ ch ∧ ch ≤ 0x66 := by
    simp only [hexDigit?, CodePoint.within_iff] at hDigit
    repeat' split at hDigit
    all_goals first
      | omega
      | cases hDigit
  constructor
  · rw [CodePoint.isValid_iff]
    omega
  · rw [notMem_delimiters_iff]
    omega

theorem hexDigit?_of_decimalDigit? {ch digit : Nat} (hDigit : decimalDigit? ch = some digit) :
    hexDigit? ch = some digit := by
  unfold decimalDigit? at hDigit
  split at hDigit
  · rwa [hexDigit?, if_pos ‹_›]
  · cases hDigit

theorem isInner_of_decimalDigit? {ch digit : Nat} (hDigit : decimalDigit? ch = some digit) : IsInner ch :=
  isInner_of_hexDigit? (hexDigit?_of_decimalDigit? hDigit)

section
variable {base value c : Nat} {digit? : CodePoint → Option Nat} {digits : Chars}

theorem le_of_numeral (hBase : 0 < base) (hNumeral : numeral base digit? value digits = some c) :
    value ≤ c := by
  induction digits generalizing value with
  | nil => exact Nat.le_of_eq (Option.some.inj hNumeral)
  | cons ch rest ih =>
    obtain ⟨digit, -, hRest⟩ := Option.bind_eq_some_iff.mp hNumeral
    exact Nat.le_trans (Nat.le_trans (Nat.le_mul_of_pos_left _ hBase) (Nat.le_add_right _ _)) (ih hRest)

theorem forall_of_numeral {P : CodePoint → Prop} (hDigits : ∀ ch digit, digit? ch = some digit → P ch)
    (hNumeral : numeral base digit? value digits = some c) : ∀ ch ∈ digits, P ch := by
  induction digits generalizing value with
  | nil => exact fun _ h => (List.not_mem_nil h).elim
  | cons ch rest ih =>
    obtain ⟨digit, hDigit, hRest⟩ := Option.bind_eq_some_iff.mp hNumeral
    exact List.forall_mem_cons.mpr ⟨hDigits ch digit hDigit, ih hRest⟩

end

theorem isInner_of_denotes {body : Chars} {c : CodePoint} (hBody : Denotes body c) :
    ∀ ch ∈ body, IsInner ch := by
  have hHash : IsInner CodePoint.hash := ⟨by decide, by decide⟩
  cases hBody with
  | decimal hDigits hValid =>
    exact List.forall_mem_cons.mpr
      ⟨hHash, forall_of_numeral (fun _ _ => isInner_of_decimalDigit?) hDigits⟩
  | hex hDigits hValid =>
    exact List.forall_mem_cons.mpr ⟨hHash, List.forall_mem_cons.mpr
      ⟨⟨by decide, by decide⟩, forall_of_numeral (fun _ _ => isInner_of_hexDigit?) hDigits⟩⟩
  | entity hName => exact fun ch hch => ((EntityName.chars_of_codePoint? hName).2 ch hch).1

variable {e : Encoding} {place : Nat} {text : Chars} {c : CodePoint}

abbrev machine : Automaton State CodePoint :=
  fun state _ ch => step state ch

/-- Digits of one base, read by states that hold the number so far. -/
theorem accepts_number_iff {base value : Nat} {digit? : CodePoint → Option Nat} {fault : ReferenceFault}
    {state : Nat → State}
    (hStep : ∀ value ch, step (state value) ch = if ch = CodePoint.semicolon then ofNumber value
      else match digit? ch with
        | some digit => extend state (base * value + digit)
        | none => reject fault)
    (hBase : 0 < base) (hInner : ∀ ch digit, digit? ch = some digit → IsInner ch) :
    machine.Accepts e (state value) place text c ↔
      ∃ digits, text = digits ++ [CodePoint.semicolon] ∧ numeral base digit? value digits = some c ∧
        CodePoint.isValid c = true := by
  have hSemicolon : digit? CodePoint.semicolon = none := by
    cases hDigit : digit? CodePoint.semicolon with
    | none => rfl
    | some digit => exact absurd List.mem_cons_self (hInner _ _ hDigit).notMem
  induction text generalizing value place with
  | nil => simp [Automaton.Accepts]
  | cons ch rest ih =>
    rw [exists_cons_eq_append_iff]
    simp only [numeral]
    by_cases hEnd : ch = CodePoint.semicolon
    · subst hEnd
      have hNumber : step (state value) CodePoint.semicolon = ofNumber value := by
        rw [hStep, if_pos rfl]
      simp only [hSemicolon, Option.bind_none, reduceCtorEq, false_and, and_false, exists_false,
        or_false, Option.some.injEq, List.cons.injEq, true_and]
      by_cases hValid : CodePoint.isValid value = true
      · rw [Automaton.accepts_of_done (hNumber.trans (if_pos hValid))]
        constructor
        · rintro ⟨rfl, rfl⟩
          exact ⟨rfl, rfl, hValid⟩
        · rintro ⟨rfl, rfl, -⟩
          exact ⟨rfl, rfl⟩
      · rw [Automaton.accepts_of_reject (hNumber.trans (if_neg hValid)), false_iff]
        rintro ⟨-, rfl, h⟩
        exact hValid h
    · simp only [List.cons.injEq, hEnd, false_and, false_or]
      cases hDigit : digit? ch with
      | none =>
        have hReject : step (state value) ch = reject fault := by
          rw [hStep, if_neg hEnd, hDigit]
        rw [Automaton.accepts_of_reject hReject]
        simp
      | some digit =>
        have hExtend : step (state value) ch = extend state (base * value + digit) := by
          rw [hStep, if_neg hEnd, hDigit]
        simp only [Option.bind_some]
        by_cases hSmall : base * value + digit < 0x100000000
        · rw [Automaton.accepts_of_more (hExtend.trans (if_pos hSmall))]
          exact ih
        · rw [Automaton.accepts_of_reject (hExtend.trans (if_neg hSmall)), false_iff]
          rintro ⟨digits, -, hNumeral, hValid⟩
          -- A number too large to be stored would be no character either.
          have hLarge := le_of_numeral hBase hNumeral
          rw [CodePoint.isValid_iff] at hValid
          omega

theorem accepts_decimal_iff {value : Nat} :
    machine.Accepts e (.decimal value) place text c ↔
      ∃ digits, text = digits ++ [CodePoint.semicolon] ∧
        numeral 10 decimalDigit? value digits = some c ∧ CodePoint.isValid c = true :=
  accepts_number_iff (fun _ _ => rfl) (by decide) (fun _ _ => isInner_of_decimalDigit?)

theorem accepts_hex_iff {value : Nat} :
    machine.Accepts e (.hex value) place text c ↔
      ∃ digits, text = digits ++ [CodePoint.semicolon] ∧
        numeral 16 hexDigit? value digits = some c ∧ CodePoint.isValid c = true :=
  accepts_number_iff (fun _ _ => rfl) (by decide) (fun _ _ => isInner_of_hexDigit?)

theorem accepts_name_iff {reversed : Chars} (hLength : reversed.length ≤ maxNameLength) :
    machine.Accepts e (.name reversed) place text c ↔
      ∃ more, text = more ++ [CodePoint.semicolon] ∧
        EntityName.codePoint? (String.ofList ((reversed.reverse ++ more).map Char.ofNat)) = some c := by
  induction text generalizing reversed place with
  | nil => simp [Automaton.Accepts]
  | cons ch rest ih =>
    rw [exists_cons_eq_append_iff]
    by_cases hEnd : ch = CodePoint.semicolon
    · subst hEnd
      have hName : step (.name reversed) CodePoint.semicolon = ofName reversed := rfl
      have hOnly : ¬∃ more, rest = more ++ [CodePoint.semicolon] ∧ EntityName.codePoint?
          (String.ofList ((reversed.reverse ++ CodePoint.semicolon :: more).map Char.ofNat)) =
            some c := by
        rintro ⟨more, -, hFound⟩
        have hInner := (EntityName.chars_of_codePoint? hFound).2 CodePoint.semicolon
          (List.mem_append_right _ List.mem_cons_self)
        exact hInner.1.notMem List.mem_cons_self
      rw [or_iff_left hOnly, List.append_nil]
      cases hFound : EntityName.codePoint? (String.ofList (reversed.reverse.map Char.ofNat)) with
      | none =>
        have hReject : step (.name reversed) CodePoint.semicolon =
            reject (.unknownName (String.ofList (reversed.reverse.map Char.ofNat))) := by
          rw [hName, ofName]
          simp only [hFound]
        rw [Automaton.accepts_of_reject hReject]
        simp
      | some d =>
        have hDone : step (.name reversed) CodePoint.semicolon = .done d := by
          rw [hName, ofName]
          simp only [hFound]
        rw [Automaton.accepts_of_done hDone]
        simp [eq_comm]
    · have hName : step (.name reversed) ch =
          if reversed.length < maxNameLength then .more (.name (ch :: reversed)) else reject .longName :=
        if_neg hEnd
      simp only [List.cons.injEq, hEnd, false_and, false_or]
      by_cases hShort : reversed.length < maxNameLength
      · rw [Automaton.accepts_of_more (hName.trans (if_pos hShort))]
        refine (@ih _ (ch :: reversed) hShort).trans ?_
        simp
      · rw [Automaton.accepts_of_reject (hName.trans (if_neg hShort)), false_iff]
        rintro ⟨more, -, hFound⟩
        have hBound := (EntityName.chars_of_codePoint? hFound).1
        unfold maxNameLength at hShort
        simp only [List.length_append, List.length_reverse, List.length_cons] at hBound
        omega

theorem accepts_number_start_iff : machine.Accepts e .number place text c ↔
    ∃ body, text = body ++ [CodePoint.semicolon] ∧ Denotes (CodePoint.hash :: body) c := by
  have hDenotes : ∀ body, Denotes (CodePoint.hash :: body) c ↔
      CodePoint.isValid c = true ∧ (numeral 10 decimalDigit? 0 body = some c ∨
        ∃ digits, body = 0x78 :: digits ∧ numeral 16 hexDigit? 0 digits = some c) := by
    intro body
    constructor
    · rintro (⟨hDigits, hValid⟩ | ⟨hDigits, hValid⟩ | hName)
      · exact ⟨hValid, .inl hDigits⟩
      · exact ⟨hValid, .inr ⟨_, rfl, hDigits⟩⟩
      · exact absurd rfl ((EntityName.chars_of_codePoint? hName).2 _ List.mem_cons_self).2
    · rintro ⟨hValid, hDigits | ⟨digits, rfl, hDigits⟩⟩
      · exact .decimal hDigits hValid
      · exact .hex hDigits hValid
  simp only [hDenotes]
  cases text with
  | nil => simp [Automaton.Accepts]
  | cons ch rest =>
    by_cases hHex : ch = 0x78
    · subst hHex
      rw [Automaton.accepts_of_more (m := machine) (t := .hex 0) rfl, accepts_hex_iff,
        exists_cons_eq_append_iff]
      have hDiffers : (0x78 : CodePoint) ≠ CodePoint.semicolon := by decide
      simp [numeral, decimalDigit?, CodePoint.within, and_comm, hDiffers]
    · have hStep : step .number ch = step (.decimal 0) ch := if_neg hHex
      have hDecimal : machine.Accepts e .number place (ch :: rest) c ↔
          machine.Accepts e (.decimal 0) place (ch :: rest) c := by
        simp only [Automaton.Accepts, machine, hStep]
      rw [hDecimal, accepts_decimal_iff, exists_cons_eq_append_iff, exists_cons_eq_append_iff]
      simp [hHex, and_comm]

/-- Of the text after an `&`, all up to the first `;` is a reference. -/
theorem accepts_iff : machine.Accepts e .start place text c ↔
    ∃ body, text = body ++ [CodePoint.semicolon] ∧ Denotes body c := by
  cases text with
  | nil => simp [Automaton.Accepts]
  | cons ch rest =>
    by_cases hHash : ch = CodePoint.hash
    · subst hHash
      rw [Automaton.accepts_of_more (m := machine) (t := .number) rfl,
        accepts_number_start_iff, exists_cons_eq_append_iff]
      have hDiffers : CodePoint.hash ≠ CodePoint.semicolon := by decide
      simp [hDiffers]
    · have hStep : step .start ch = step (.name []) ch := if_neg hHash
      have hName : machine.Accepts e .start place (ch :: rest) c ↔
          machine.Accepts e (.name []) place (ch :: rest) c := by
        simp only [Automaton.Accepts, machine, hStep]
      rw [hName, accepts_name_iff (Nat.zero_le _)]
      simp only [List.reverse_nil, List.nil_append]
      constructor
      · rintro ⟨body, hText, hFound⟩
        exact ⟨body, hText, .entity hFound⟩
      · rintro ⟨body, hText, hBody⟩
        refine ⟨body, hText, ?_⟩
        cases hBody with
        | entity hFound => exact hFound
        | decimal | hex => exact absurd (List.cons.inj hText).1 hHash

end Reference

namespace Automaton
variable {σ α : Type} {machine : Automaton σ α} {e : Encoding} {place : Nat} {text : Chars} {a : α}

/-- An automaton that runs the automaton of references in some of its states. -/
structure Embeds (machine : Automaton σ α) (embed : Reference.State → σ) (resumed : σ) : Prop where
  step_eq : ∀ state place ch, machine (embed state) place ch =
    match Reference.step state ch with
    | .more state' => .more (embed state')
    | .done _ => .more resumed
    | .reject fault => .reject fault

theorem Embeds.accepts_iff {embed : Reference.State → σ} {resumed : σ} {state : Reference.State}
    (hEmbeds : machine.Embeds embed resumed) :
    machine.Accepts e (embed state) place text a ↔ ∃ body rest c, text = body ++ rest ∧
      Reference.machine.Accepts e state place body c ∧
        machine.Accepts e resumed (place + e.size body) rest a := by
  induction text generalizing state place with
  | nil =>
    refine iff_of_false not_accepts_nil ?_
    rintro ⟨body, rest, c, hText, hBody, -⟩
    rw [(List.append_eq_nil_iff.mp hText.symm).1] at hBody
    exact hBody
  | cons ch text ih =>
    have hStep := hEmbeds.step_eq state place ch
    constructor
    · intro hAccepts
      cases hInner : Reference.step state ch with
      | more state' =>
        rw [hInner] at hStep
        rw [accepts_of_more hStep] at hAccepts
        obtain ⟨body, rest, c, rfl, hBody, hRest⟩ := ih.mp hAccepts
        refine ⟨ch :: body, rest, c, rfl, (accepts_of_more hInner).mpr hBody, ?_⟩
        rwa [Encoding.size_cons, ← Nat.add_assoc]
      | done c =>
        rw [hInner] at hStep
        rw [accepts_of_more hStep] at hAccepts
        exact ⟨[ch], text, c, rfl, (accepts_of_done hInner).mpr ⟨rfl, rfl⟩, by simpa using hAccepts⟩
      | reject fault =>
        rw [hInner] at hStep
        exact ((accepts_of_reject hStep).mp hAccepts).elim
    · rintro ⟨body, rest, c, hText, hBody, hRest⟩
      cases body with
      | nil => exact hBody.elim
      | cons d body =>
        obtain ⟨rfl, rfl⟩ := List.cons.inj hText
        cases hInner : Reference.step state ch with
        | more state' =>
          rw [hInner] at hStep
          rw [accepts_of_more hInner] at hBody
          rw [Encoding.size_cons, ← Nat.add_assoc] at hRest
          exact (accepts_of_more hStep).mpr (ih.mpr ⟨body, rest, c, rfl, hBody, hRest⟩)
        | done c' =>
          rw [hInner] at hStep
          obtain ⟨rfl, rfl⟩ := (accepts_of_done hInner).mp hBody
          exact (accepts_of_more hStep).mpr (by simpa using hRest)
        | reject fault => exact ((accepts_of_reject hInner).mp hBody).elim

/-- Where the automaton goes on after a reference. -/
theorem Embeds.accepts_start_iff {embed : Reference.State → σ} {resumed : σ}
    (hEmbeds : machine.Embeds embed resumed) :
    machine.Accepts e (embed .start) place text a ↔ ∃ body rest c,
      text = body ++ CodePoint.semicolon :: rest ∧ Denotes body c ∧
        machine.Accepts e resumed (place + e.size (body ++ [CodePoint.semicolon])) rest a := by
  rw [hEmbeds.accepts_iff]
  constructor
  · rintro ⟨_, rest, c, rfl, hBody, hRest⟩
    obtain ⟨body, rfl, hDenotes⟩ := Reference.accepts_iff.mp hBody
    exact ⟨body, rest, c, by simp, hDenotes, hRest⟩
  · rintro ⟨body, rest, c, rfl, hBody, hRest⟩
    exact ⟨body ++ [CodePoint.semicolon], rest, c, by simp,
      Reference.accepts_iff.mpr ⟨body, rfl, hBody⟩, hRest⟩

end Automaton

namespace Grammar
variable {plain : CodePoint → Bool} {ch : CodePoint} {rest : Chars}

theorem escaped_cons_of_ne (hOther : ch ≠ CodePoint.ampersand) :
    Escaped plain (ch :: rest) ↔ plain ch = true ∧ Escaped plain rest := by
  constructor
  · intro h
    cases h with
    | char hPlain hRest => exact ⟨hPlain, hRest⟩
    | reference => exact absurd rfl hOther
  · exact fun h => .char h.1 h.2

theorem escaped_ampersand_cons (hPlain : plain CodePoint.ampersand = false) :
    Escaped plain (CodePoint.ampersand :: rest) ↔ ∃ body others c,
      rest = body ++ CodePoint.semicolon :: others ∧ Denotes body c ∧ Escaped plain others := by
  constructor
  · intro h
    cases h with
    | char hChar => rw [hPlain] at hChar; cases hChar
    | reference hBody hRest => exact ⟨_, _, _, rfl, hBody, hRest⟩
  · rintro ⟨body, others, c, rfl, hBody, hRest⟩
    exact .reference hBody hRest

theorem isTextChar_eq_true_iff : isTextChar ch = true ↔
    CodePoint.isValid ch = true ∧ ch ≠ CodePoint.lessThan ∧ ch ≠ CodePoint.ampersand := by
  simp [isTextChar, and_assoc]

theorem isValueChar_eq_true_iff {quote : CodePoint} :
    isValueChar quote ch = true ↔ isTextChar ch = true ∧ ch ≠ quote := by
  simp [isValueChar]

end Grammar

namespace AttributeValue

abbrev machine (quote : CodePoint) : Automaton State Unit :=
  fun state _ ch => step quote state ch

theorem embeds {quote : CodePoint} : (machine quote).Embeds .reference .body :=
  ⟨fun _ _ _ => rfl⟩

theorem accepts_iff {e : Encoding} {quote : CodePoint} {place : Nat} {text : Chars}
    (hQuote : quote = CodePoint.doubleQuote ∨ quote = CodePoint.singleQuote) :
    (machine quote).Accepts e .body place text () ↔
      ∃ value, text = value ++ [quote] ∧ Escaped (isValueChar quote) value := by
  have hNoAmpersand : isValueChar quote CodePoint.ampersand = false := by
    simp [isValueChar, isTextChar]
  induction hLength : text.length using Nat.strongRecOn generalizing text place with
  | ind n ih =>
    cases text with
    | nil => simp [Automaton.Accepts]
    | cons ch rest =>
      rw [exists_cons_eq_append_iff]
      by_cases hEnd : ch = quote
      · have hOther : ch ≠ CodePoint.ampersand := by
          rw [hEnd]
          rcases hQuote with rfl | rfl <;> decide
        have hDone : step quote .body ch = .done () := if_pos hEnd
        rw [Automaton.accepts_of_done (m := machine quote) hDone]
        simp [hEnd, escaped_cons_of_ne (hEnd ▸ hOther), isValueChar_eq_true_iff, Escaped.nil]
      · simp only [List.cons.injEq, hEnd, false_and, false_or]
        by_cases hReference : ch = CodePoint.ampersand
        · subst hReference
          have hMore : step quote .body CodePoint.ampersand = .more (.reference .start) := by
            rw [step, if_neg hEnd]
            rfl
          rw [Automaton.accepts_of_more (m := machine quote) hMore, embeds.accepts_start_iff]
          simp only [escaped_ampersand_cons hNoAmpersand]
          constructor
          · rintro ⟨body, others, c, rfl, hBody, hOthers⟩
            obtain ⟨value, rfl, hValue⟩ := (ih others.length (by simp at hLength; omega) rfl).mp hOthers
            exact ⟨body ++ CodePoint.semicolon :: value, by simp, body, value, c, rfl, hBody, hValue⟩
          · rintro ⟨_, rfl, body, value, c, rfl, hBody, hValue⟩
            refine ⟨body, value ++ [quote], c, by simp, hBody, ?_⟩
            exact (ih _ (by simp at hLength ⊢; omega) rfl).mpr ⟨value, rfl, hValue⟩
        · simp only [escaped_cons_of_ne hReference]
          by_cases hText : isTextChar ch = true
          · have hChar := isTextChar_eq_true_iff.mp hText
            have hMore : step quote .body ch = .more .body := by
              rw [step, if_neg hEnd]
              simp [hChar.1, hChar.2.1, hReference]
            rw [Automaton.accepts_of_more (m := machine quote) hMore]
            refine (ih rest.length (by simp at hLength; omega) rfl).trans ?_
            simp [isValueChar_eq_true_iff, hText, hEnd]
          · have hReject : step quote .body ch =
                .reject (.structural (.invalidCharacter .attributeValue) none) := by
              rw [step, if_neg hEnd, if_pos]
              simp only [isTextChar_eq_true_iff, not_and] at hText
              by_cases hValid : CodePoint.isValid ch = true
              · by_cases hLess : ch = CodePoint.lessThan
                · simp [hLess]
                · exact absurd hReference (hText hValid hLess)
              · simp [hValid]
            rw [Automaton.accepts_of_reject (m := machine quote) hReject]
            simp [isValueChar_eq_true_iff, hText]

end AttributeValue

namespace Text

def pending : State → Chars
  | .bracket => [CodePoint.rightBracket]
  | .brackets => [CodePoint.rightBracket, CodePoint.rightBracket]
  | _ => []

abbrev machine : Automaton State Unit :=
  fun state _ ch => step state ch

theorem embeds : machine.Embeds .reference .plain :=
  ⟨fun _ _ _ => rfl⟩

def RunTo (text : Chars) : Prop :=
  ∃ run, text = run ++ [CodePoint.lessThan] ∧ IsRun run

section
variable {ch : CodePoint} {rest : Chars}

theorem isRun_nil : IsRun [] :=
  ⟨.nil, by simp⟩

theorem runTo_lessThan_cons : RunTo (CodePoint.lessThan :: rest) ↔ rest = [] := by
  unfold RunTo
  rw [exists_cons_eq_append_iff]
  constructor
  · rintro (⟨hText, -⟩ | ⟨run, -, hRun, -⟩)
    · exact (List.cons.inj hText).2
    · rw [escaped_cons_of_ne (by decide)] at hRun
      exact absurd hRun.1 (by decide)
  · rintro rfl
    exact .inl ⟨rfl, isRun_nil⟩

theorem runTo_cons_of_ne (hLess : ch ≠ CodePoint.lessThan) (hAmpersand : ch ≠ CodePoint.ampersand) :
    RunTo (ch :: rest) ↔ isTextChar ch = true ∧
      ¬CharacterSection.terminator <+: ch :: rest ∧ RunTo rest := by
  unfold RunTo
  rw [exists_cons_eq_append_iff]
  simp only [List.cons.injEq, hLess, false_and, false_or]
  have hCons : ∀ run, rest = run ++ [CodePoint.lessThan] → (IsRun (ch :: run) ↔
      isTextChar ch = true ∧ ¬CharacterSection.terminator <+: ch :: rest ∧ IsRun run) := by
    rintro run rfl
    rw [← List.cons_append, prefix_concat_iff (by decide)]
    constructor
    · rintro ⟨hEscaped, hNone⟩
      rw [escaped_cons_of_ne hAmpersand] at hEscaped
      rw [List.infix_cons_iff, not_or] at hNone
      exact ⟨hEscaped.1, hNone.1, hEscaped.2, hNone.2⟩
    · rintro ⟨hChar, hHere, hEscaped, hNone⟩
      exact ⟨.char hChar hEscaped, fun h => (List.infix_cons_iff.mp h).elim hHere hNone⟩
  constructor
  · rintro ⟨run, hRest, hRun⟩
    obtain ⟨hChar, hHere, hRun⟩ := (hCons run hRest).mp hRun
    exact ⟨hChar, hHere, run, hRest, hRun⟩
  · rintro ⟨hChar, hHere, run, hRest, hRun⟩
    exact ⟨run, hRest, (hCons run hRest).mpr ⟨hChar, hHere, hRun⟩⟩

theorem runTo_ampersand_cons : RunTo (CodePoint.ampersand :: rest) ↔ ∃ body others c,
    rest = body ++ CodePoint.semicolon :: others ∧ Denotes body c ∧ RunTo others := by
  unfold RunTo
  rw [exists_cons_eq_append_iff, or_iff_right (by rintro ⟨hText, -⟩; cases hText)]
  constructor
  · rintro ⟨run, rfl, hEscaped, hNone⟩
    obtain ⟨body, others, c, rfl, hBody, hOthers⟩ := (escaped_ampersand_cons (by decide)).mp hEscaped
    refine ⟨body, others ++ [CodePoint.lessThan], c, by simp, hBody, others, rfl, hOthers, ?_⟩
    have hSuffix : others <:+: CodePoint.ampersand :: (body ++ CodePoint.semicolon :: others) :=
      ⟨CodePoint.ampersand :: (body ++ [CodePoint.semicolon]), [], by simp⟩
    exact fun h => hNone (h.trans hSuffix)
  · rintro ⟨body, _, c, rfl, hBody, run, rfl, hEscaped, hNone⟩
    refine ⟨body ++ CodePoint.semicolon :: run, by simp, .reference hBody hEscaped, ?_⟩
    have hAbsent : CodePoint.rightBracket ∉
        CodePoint.ampersand :: (body ++ [CodePoint.semicolon]) := by
      simp only [List.mem_cons, List.mem_append, List.not_mem_nil, or_false, not_or]
      refine ⟨by decide, fun h => ?_, by decide⟩
      exact (Reference.isInner_of_denotes hBody _ h).notMem
        (List.mem_cons_of_mem _ List.mem_cons_self)
    have hSplit : CodePoint.ampersand :: (body ++ CodePoint.semicolon :: run) =
        (CodePoint.ampersand :: (body ++ [CodePoint.semicolon])) ++ run := by simp
    rwa [hSplit, infix_append_iff_of_notMem hAbsent]

theorem runTo_pending_iff {state : State} (hBracket : ch ≠ CodePoint.rightBracket)
    (hEnd : ch = CodePoint.greaterThan → state ≠ .brackets) :
    RunTo (pending state ++ ch :: rest) ↔ RunTo (ch :: rest) := by
  have hText : isTextChar CodePoint.rightBracket = true := by decide
  have hLess : CodePoint.rightBracket ≠ CodePoint.lessThan := by decide
  have hAmpersand : CodePoint.rightBracket ≠ CodePoint.ampersand := by decide
  cases state with
  | brackets =>
    have hGreater : CodePoint.greaterThan ≠ ch := fun h => hEnd h.symm rfl
    simp [pending, runTo_cons_of_ne hLess hAmpersand, hText, Ne.symm hBracket, hGreater]
  | bracket => simp [pending, runTo_cons_of_ne hLess hAmpersand, hText, Ne.symm hBracket]
  | plain | reference => rfl

theorem isContent_eq_true_iff (hBracket : ch ≠ CodePoint.rightBracket) :
    CodePoint.isContent ch = true ↔ isTextChar ch = true := by
  simp [CodePoint.isContent, isTextChar, hBracket]

end

theorem accepts_iff {e : Encoding} {state : State} {place : Nat} {text : Chars}
    (hState : ∀ inner, state ≠ .reference inner) :
    machine.Accepts e state place text () ↔ RunTo (pending state ++ text) := by
  induction hLength : text.length using Nat.strongRecOn generalizing state text place with
  | ind n ih =>
    cases text with
    | nil =>
      refine iff_of_false Automaton.not_accepts_nil ?_
      rintro ⟨run, hRun, -⟩
      have hLast := congrArg List.getLast? hRun
      cases state <;> simp [pending, CodePoint.rightBracket, CodePoint.lessThan] at hLast
    | cons ch rest =>
      have hShorter : rest.length < n := by simp at hLength; omega
      by_cases hBracket : ch = CodePoint.rightBracket
      · subst hBracket
        cases state with
        | plain => exact @ih _ hShorter .bracket _ _ (fun _ => State.noConfusion) rfl
        | bracket => exact @ih _ hShorter .brackets _ _ (fun _ => State.noConfusion) rfl
        | brackets =>
          refine (@ih _ hShorter .brackets _ _ (fun _ => State.noConfusion) rfl).trans ?_
          -- The oldest of three brackets does not begin the end of a section.
          rw [show pending .brackets ++ CodePoint.rightBracket :: rest =
            CodePoint.rightBracket :: (pending .brackets ++ rest) from rfl,
            runTo_cons_of_ne (by decide) (by decide)]
          have hDiffers : CodePoint.greaterThan ≠ CodePoint.rightBracket := by decide
          simp [pending, hDiffers, show isTextChar CodePoint.rightBracket = true by decide]
        | reference inner => exact absurd rfl (hState inner)
      · by_cases hSection : ch = CodePoint.greaterThan ∧ state = .brackets
        · obtain ⟨rfl, rfl⟩ := hSection
          rw [Automaton.accepts_of_reject (m := machine) rfl]
          simp [pending, runTo_cons_of_ne (show CodePoint.rightBracket ≠ CodePoint.lessThan by decide)
            (show CodePoint.rightBracket ≠ CodePoint.ampersand by decide)]
        · have hStep : step state ch = plainStep ch := by
            cases state with
            | plain => rfl
            | bracket => exact if_neg hBracket
            | brackets => rw [step, if_neg hBracket, if_neg fun h => hSection ⟨h, rfl⟩]
            | reference inner => exact absurd rfl (hState inner)
          rw [runTo_pending_iff hBracket fun hEnd hBrackets => hSection ⟨hEnd, hBrackets⟩]
          by_cases hLess : ch = CodePoint.lessThan
          · rw [Automaton.accepts_of_done (m := machine) (hStep.trans (if_pos hLess)), hLess,
              runTo_lessThan_cons]
            exact and_iff_left rfl
          · by_cases hReference : ch = CodePoint.ampersand
            · subst hReference
              have hMore : step state CodePoint.ampersand = .more (.reference .start) := hStep.trans rfl
              rw [Automaton.accepts_of_more (m := machine) hMore, embeds.accepts_start_iff,
                runTo_ampersand_cons]
              refine exists_congr fun body => exists_congr fun others => exists_congr fun c =>
                and_congr_right ?_
              rintro rfl
              refine and_congr_right fun _ => ?_
              exact @ih _ (by simp at hLength; omega) .plain _ _ (fun _ => State.noConfusion) rfl
            · rw [runTo_cons_of_ne hLess hReference]
              have hHere : ¬CharacterSection.terminator <+: ch :: rest :=
                fun h => hBracket (List.cons_prefix_cons.mp h).1.symm
              by_cases hText : isTextChar ch = true
              · have hMore : step state ch = .more .plain := by
                  rw [hStep, plainStep, if_neg hLess, if_pos ((isContent_eq_true_iff hBracket).mpr hText)]
                rw [Automaton.accepts_of_more (m := machine) hMore]
                refine (@ih _ hShorter .plain _ _ (fun _ => State.noConfusion) rfl).trans ?_
                simp [pending, hText, hHere]
              · have hReject : step state ch =
                    .reject (.structural (.invalidCharacter .text) none) := by
                  rw [hStep, plainStep, if_neg hLess, if_neg (mt (isContent_eq_true_iff hBracket).mp hText),
                    if_neg hReference, if_neg hBracket]
                rw [Automaton.accepts_of_reject (m := machine) hReject]
                simp [hText]

/-- Text up to the next bracket is a run of character data. -/
theorem accepts_plain_iff {e : Encoding} {place : Nat} {text : Chars} :
    machine.Accepts e .plain place text () ↔
      ∃ run, text = run ++ [CodePoint.lessThan] ∧ IsRun run :=
  accepts_iff (fun _ => State.noConfusion)

end Text
end XmlIndex
