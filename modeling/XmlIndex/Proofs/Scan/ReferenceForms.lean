import Mathlib.Data.Nat.Digits.Lemmas
import XmlIndex.Proofs.Scan.References

/-! # The forms of references

XML describes a reference without regard to how it is read: decimal digits, hexadecimal digits or a name
of the entity table. The number that digits write is their positional value, however many there are, so
the bound of 32 bits and the early end that it brings do not show: reading a reference succeeds exactly on
these forms, and where there is a `;` but none of them it fails with a fault of references.
-/
namespace XmlIndex
set_option autoImplicit false

namespace Grammar

inductive IsDigit (base : Nat) : CodePoint → Nat → Prop where
  | figure {d : Nat} : d < 10 → d < base → IsDigit base (0x30 + d) d
  | small {d : Nat} : d < 26 → d + 10 < base → IsDigit base (0x61 + d) (d + 10)
  | capital {d : Nat} : d < 26 → d + 10 < base → IsDigit base (0x41 + d) (d + 10)

/-- One or more digits, the first of which counts most, and the number they write. -/
inductive Writes (base : Nat) : Chars → Nat → Prop where
  | mk {text : Chars} {digits : List Nat} : text ≠ [] → List.Forall₂ (IsDigit base) text digits →
      Writes base text (Nat.ofDigits base digits.reverse)

/-- What stands between the `&` and the `;` of a reference by the rules of XML. -/
inductive RefersTo : Chars → CodePoint → Prop where
  | decimal {digits : Chars} {n : Nat} : Writes 10 digits n → CodePoint.isValid n = true →
      RefersTo (CodePoint.hash :: digits) n
  | hex {digits : Chars} {n : Nat} : Writes 16 digits n → CodePoint.isValid n = true →
      RefersTo (CodePoint.hash :: 0x78 :: digits) n
  | entity {name : String} {n : Nat} : EntityName.codePoint? name = some n →
      RefersTo (name.toList.map Char.toNat) n

end Grammar
open Grammar

namespace EntityName

/-- A text that is looked up is the name found, character by character. -/
theorem codePoint?_ofList_iff {text : Chars} {n : Nat} :
    codePoint? (String.ofList (text.map Char.ofNat)) = some n ↔
      ∃ name, codePoint? name = some n ∧ text = name.toList.map Char.toNat := by
  constructor
  · intro hFound
    refine ⟨_, hFound, ?_⟩
    have hSame : ∀ ch ∈ text, (Char.toNat ∘ Char.ofNat) ch = id ch := by
      intro ch hch
      have hValid := ((chars_of_codePoint? hFound).2 ch hch).1.isValid
      rw [CodePoint.isValid_iff] at hValid
      rw [Function.comp_apply, toNat_charOfNat, if_pos, id_eq]
      simp only [Nat.isValidChar]
      omega
    rw [String.toList_ofList, List.map_map, List.map_congr_left hSame, List.map_id]
  · rintro ⟨name, hFound, rfl⟩
    have hSame : ∀ ch ∈ name.toList, (Char.ofNat ∘ Char.toNat) ch = id ch :=
      fun ch _ => Char.ofNat_toNat ch
    rwa [List.map_map, List.map_congr_left hSame, List.map_id, String.ofList_toList]

end EntityName

namespace Reference
variable {ch digit base value n : Nat} {digit? : CodePoint → Option Nat} {text : Chars}

theorem decimalDigit?_eq_some_iff : decimalDigit? ch = some digit ↔ IsDigit 10 ch digit := by
  constructor
  · intro hDigit
    unfold decimalDigit? at hDigit
    split at hDigit
    · rename_i hRange
      rw [CodePoint.within_iff] at hRange
      obtain ⟨d, rfl⟩ := Nat.exists_eq_add_of_le hRange.1
      rw [Nat.add_sub_cancel_left] at hDigit
      obtain rfl := Option.some.inj hDigit
      exact .figure (by omega) (by omega)
    · cases hDigit
  · intro hDigit
    cases hDigit with
    | figure hFigure =>
      rw [decimalDigit?, if_pos (CodePoint.within_iff.mpr (by omega)), Nat.add_sub_cancel_left]
    | small | capital => omega

theorem hexDigit?_eq_some_iff : hexDigit? ch = some digit ↔ IsDigit 16 ch digit := by
  constructor
  · intro hDigit
    simp only [hexDigit?, CodePoint.within_iff] at hDigit
    split at hDigit
    · obtain ⟨d, rfl⟩ := Nat.exists_eq_add_of_le (‹_ ∧ _› : 0x30 ≤ ch ∧ _).1
      obtain rfl := Option.some.inj hDigit
      rw [Nat.add_sub_cancel_left]
      exact .figure (by omega) (by omega)
    · split at hDigit
      · obtain ⟨d, rfl⟩ := Nat.exists_eq_add_of_le (‹_ ∧ _› : 0x61 ≤ ch ∧ _).1
        obtain rfl := Option.some.inj hDigit
        rw [show 0x61 + d - 0x57 = d + 10 by omega]
        exact .small (by omega) (by omega)
      · split at hDigit
        · obtain ⟨d, rfl⟩ := Nat.exists_eq_add_of_le (‹_ ∧ _› : 0x41 ≤ ch ∧ _).1
          obtain rfl := Option.some.inj hDigit
          rw [show 0x41 + d - 0x37 = d + 10 by omega]
          exact .capital (by omega) (by omega)
        · cases hDigit
  · intro hDigit
    simp only [hexDigit?, CodePoint.within_iff]
    cases hDigit with
    | figure hFigure => rw [if_pos (by omega), Nat.add_sub_cancel_left]
    | @small d hLetter hBase =>
      rw [if_neg (by omega), if_pos (by omega)]
      exact congrArg some (by omega)
    | @capital d hLetter hBase =>
      rw [if_neg (by omega), if_neg (by omega), if_pos (by omega)]
      exact congrArg some (by omega)

/-- Reading digits after those of `value` comes to their positional value, however many they are. -/
theorem numeral_eq_some_iff (hDigit : ∀ ch digit, digit? ch = some digit ↔ IsDigit base ch digit) :
    numeral base digit? value text = some n ↔ ∃ digits, List.Forall₂ (IsDigit base) text digits ∧
      n = base ^ digits.length * value + Nat.ofDigits base digits.reverse := by
  induction text generalizing value with
  | nil => simp [numeral, eq_comm]
  | cons ch rest ih =>
    rw [numeral, Option.bind_eq_some_iff]
    -- The digit read first is the last of the reversed ones, so it counts most.
    have hPlace (digit : Nat) (digits : List Nat) :
        base ^ digits.length * (base * value + digit) + Nat.ofDigits base digits.reverse =
          base ^ (digit :: digits).length * value + Nat.ofDigits base (digit :: digits).reverse := by
      rw [List.reverse_cons, Nat.ofDigits_append, Nat.ofDigits_singleton, List.length_reverse,
        List.length_cons]
      ring
    constructor
    · rintro ⟨digit, hHead, hRest⟩
      obtain ⟨digits, hDigits, rfl⟩ := ih.mp hRest
      exact ⟨digit :: digits, .cons ((hDigit ch digit).mp hHead) hDigits, hPlace digit digits⟩
    · rintro ⟨digits, hDigits, rfl⟩
      cases hDigits with
      | @cons _ digit _ digits hHead hRest =>
        exact ⟨digit, (hDigit ch digit).mpr hHead, ih.mpr ⟨digits, hRest, (hPlace digit digits).symm⟩⟩

/-- Without digits there is no character: their number would be zero. -/
theorem numeral_iff_writes (hDigit : ∀ ch digit, digit? ch = some digit ↔ IsDigit base ch digit)
    (hValid : CodePoint.isValid n = true) :
    numeral base digit? 0 text = some n ↔ Writes base text n := by
  rw [numeral_eq_some_iff hDigit]
  constructor
  · rintro ⟨digits, hDigits, rfl⟩
    rw [Nat.mul_zero, Nat.zero_add] at hValid ⊢
    refine .mk ?_ hDigits
    rintro rfl
    cases hDigits
    cases hValid
  · rintro ⟨-, hDigits⟩
    exact ⟨_, hDigits, by rw [Nat.mul_zero, Nat.zero_add]⟩

/-- The references that are accepted are those of XML. -/
theorem denotes_iff_refersTo : Denotes text n ↔ RefersTo text n := by
  constructor
  · intro hText
    cases hText with
    | decimal hDigits hValid =>
      exact .decimal ((numeral_iff_writes (fun _ _ => decimalDigit?_eq_some_iff) hValid).mp hDigits) hValid
    | hex hDigits hValid =>
      exact .hex ((numeral_iff_writes (fun _ _ => hexDigit?_eq_some_iff) hValid).mp hDigits) hValid
    | entity hFound =>
      obtain ⟨name, hName, rfl⟩ := EntityName.codePoint?_ofList_iff.mp hFound
      exact .entity hName
  · intro hText
    cases hText with
    | decimal hDigits hValid =>
      exact .decimal ((numeral_iff_writes (fun _ _ => decimalDigit?_eq_some_iff) hValid).mpr hDigits) hValid
    | hex hDigits hValid =>
      exact .hex ((numeral_iff_writes (fun _ _ => hexDigit?_eq_some_iff) hValid).mpr hDigits) hValid
    | @entity name _ hName => exact .entity (EntityName.codePoint?_ofList_iff.mpr ⟨name, hName, rfl⟩)

def Ends (verdict : Verdict State CodePoint) : Prop :=
  (∃ n, verdict = .done n) ∨ ∃ cause, verdict = .reject (.reference cause)

def Proceeds (verdict : Verdict State CodePoint) : Prop :=
  (∃ state, verdict = .more state) ∨ Ends verdict

theorem ends_reject (cause : ReferenceFault) : Ends (reject cause) :=
  .inr ⟨cause, rfl⟩

theorem ends_ofNumber (value : Nat) : Ends (ofNumber value) := by
  unfold ofNumber
  split
  · exact .inl ⟨value, rfl⟩
  · exact ends_reject _

theorem ends_ofName (reversed : Chars) : Ends (ofName reversed) := by
  unfold ofName
  dsimp only
  split
  · exact .inl ⟨_, rfl⟩
  · exact ends_reject _

/-- No reference goes on after a `;`. -/
theorem ends_step_semicolon : (state : State) → Ends (step state CodePoint.semicolon)
  | .start => ends_ofName []
  | .number => ends_ofNumber 0
  | .decimal value | .hex value => ends_ofNumber value
  | .name reversed => ends_ofName reversed

section
variable {a b : Verdict State CodePoint} {p : Prop} [Decidable p]

theorem proceeds_more (state : State) : Proceeds (.more state) :=
  .inl ⟨state, rfl⟩

theorem proceeds_ite (hThen : Proceeds a) (hElse : Proceeds b) : Proceeds (if p then a else b) := by
  split
  · exact hThen
  · exact hElse

end

theorem proceeds_digit (state : Nat → State) (digit? : CodePoint → Option Nat) (fault : ReferenceFault) :
    Proceeds (match digit? ch with
      | some digit => extend state (base * value + digit)
      | none => reject fault) := by
  split
  · exact proceeds_ite (proceeds_more _) (.inr (ends_reject _))
  · exact .inr (ends_reject _)

theorem proceeds_decimalStep (value : Nat) : Proceeds (decimalStep value ch) :=
  proceeds_ite (.inr (ends_ofNumber value)) (proceeds_digit .decimal decimalDigit? .decimalDigit)

theorem proceeds_nameStep (reversed : Chars) : Proceeds (nameStep reversed ch) :=
  proceeds_ite (.inr (ends_ofName reversed)) (proceeds_ite (proceeds_more _) (.inr (ends_reject _)))

theorem proceeds_step : (state : State) → Proceeds (step state ch)
  | .start => proceeds_ite (proceeds_more _) (proceeds_nameStep [])
  | .number => proceeds_ite (proceeds_more _) (proceeds_decimalStep 0)
  | .decimal value => proceeds_decimalStep value
  | .hex value => proceeds_ite (.inr (ends_ofNumber value)) (proceeds_digit .hex hexDigit? .hexDigit)
  | .name reversed => proceeds_nameStep reversed

end Reference

namespace Scan
variable {c : Cursor} {text : Chars}

/-- By the first `;` a reference has been read, or a fault of it found. -/
theorem drive_reference_of_reads {state : Reference.State} (hReads : c.Reads (text ++ [CodePoint.semicolon])) :
    (∃ n c', drive Reference.machine state c = .ok n c') ∨
      ∃ cause c', drive Reference.machine state c = .error (.reference cause) c' := by
  fun_induction drive Reference.machine state c generalizing text with
  | case1 state c fault c' hNext =>
    obtain ⟨ch, rest, hText⟩ : ∃ ch rest, text ++ [CodePoint.semicolon] = ch :: rest :=
      List.exists_cons_of_ne_nil (by simp)
    rw [hText] at hReads
    cases hNext.symm.trans (next_eq_ok_iff.mpr ⟨(Cursor.reads_cons.mp hReads).1, rfl⟩)
  | case2 state c ch c₁ hNext state' hMore ih =>
    obtain ⟨hHead, rfl⟩ := next_eq_ok_iff.mp hNext
    cases text with
    | nil =>
      obtain rfl := hHead.head_eq hReads
      rcases Reference.ends_step_semicolon state with ⟨n, hDone⟩ | ⟨cause, hReject⟩
      · cases hMore.symm.trans hDone
      · cases hMore.symm.trans hReject
    | cons d rest =>
      rw [List.cons_append] at hReads
      obtain rfl := hHead.head_eq hReads
      exact ih (Cursor.reads_cons.mp hReads).2
  | case3 state c ch c₁ hNext n hDone => exact .inl ⟨n, c₁, rfl⟩
  | case4 state c ch c₁ hNext fault hReject =>
    rcases @Reference.proceeds_step ch state with ⟨state', hMore⟩ | ⟨n, hDone⟩ | ⟨cause, hCause⟩
    · cases hReject.symm.trans hMore
    · cases hReject.symm.trans hDone
    · cases hReject.symm.trans hCause
      exact .inr ⟨cause, c₁, rfl⟩

/-- After an `&` exactly the references of XML are read, through their `;`; where there is a `;` but no
such reference, the fault is one of references. -/
theorem reference_iff_refersTo (c : Cursor) :
    (∀ n c', reference c = .ok n c' ↔ ∃ body, c.Reads (body ++ [CodePoint.semicolon]) ∧ RefersTo body n ∧
      c' = c.advance (body ++ [CodePoint.semicolon])) ∧
    ∀ text, c.Reads (text ++ [CodePoint.semicolon]) →
      (∀ body n, c.Reads (body ++ [CodePoint.semicolon]) → ¬RefersTo body n) →
      ∃ cause c', reference c = .error (.reference cause) c' := by
  have hRead : ∀ n c', reference c = .ok n c' ↔ ∃ body, c.Reads (body ++ [CodePoint.semicolon]) ∧
      RefersTo body n ∧ c' = c.advance (body ++ [CodePoint.semicolon]) := by
    intro n c'
    rw [reference, drive_eq_ok_iff]
    constructor
    · rintro ⟨text, hReads, hAccepts, rfl⟩
      obtain ⟨body, rfl, hBody⟩ := Reference.accepts_iff.mp hAccepts
      exact ⟨body, hReads, Reference.denotes_iff_refersTo.mp hBody, rfl⟩
    · rintro ⟨body, hReads, hBody, rfl⟩
      exact ⟨_, hReads, Reference.accepts_iff.mpr ⟨body, rfl, Reference.denotes_iff_refersTo.mpr hBody⟩, rfl⟩
  refine ⟨hRead, fun text hReads hNone => ?_⟩
  have hEnds : (∃ n c', reference c = .ok n c') ∨ ∃ cause c', reference c = .error (.reference cause) c' :=
    drive_reference_of_reads hReads
  rcases hEnds with ⟨n, c', hOk⟩ | hFault
  · obtain ⟨body, hBody, hRefers, -⟩ := (hRead n c').mp hOk
    exact absurd hRefers (hNone body n hBody)
  · exact hFault

/-- Leading zeros do not matter; of `&;` no form is a prefix. -/
theorem reference_iff_refersTo_padded :
    (∃ c', reference (Cursor.atStart "#x0041;".toUTF8 0 7 .utf8) = .ok 0x41 c' ∧ c'.offset = 7) ∧
      ∃ cause c', reference (Cursor.atStart ";".toUTF8 0 1 .utf8) = .error (.reference cause) c' := by
  constructor
  · have hDigits : List.Forall₂ (IsDigit 16) [0x30, 0x30, 0x34, 0x31] [0, 0, 4, 1] :=
      .cons (.figure (d := 0) (by decide) (by decide)) (.cons (.figure (d := 0) (by decide) (by decide))
        (.cons (.figure (d := 4) (by decide) (by decide)) (.cons (.figure (d := 1) (by decide) (by decide)) .nil)))
    refine ⟨_, ((reference_iff_refersTo _).1 0x41 _).mpr ⟨_, ?_, .hex (.mk (by decide) hDigits) (by decide), rfl⟩, rfl⟩
    exact ⟨rfl, rfl, rfl, rfl, rfl, rfl, rfl, trivial⟩
  · have hEnd : (Cursor.atStart ";".toUTF8 0 1 .utf8).Reads [CodePoint.semicolon] := ⟨rfl, trivial⟩
    refine (reference_iff_refersTo _).2 [] hEnd fun body n hReads hRefers => ?_
    have hBody := Reference.denotes_iff_refersTo.mpr hRefers
    cases body with
    | nil =>
      cases hBody with
      | entity hFound => cases (show EntityName.codePoint? "" = none by decide).symm.trans hFound
    | cons ch rest =>
      obtain rfl := hEnd.head_eq hReads
      exact (Reference.isInner_of_denotes hBody _ List.mem_cons_self).notMem List.mem_cons_self

end Scan
end XmlIndex
