import XmlIndex.Proofs.Grammar.Syntax
import XmlIndex.Proofs.Scan.Recoding

/-! # Labels of encodings

A declared encoding is taken over only if its label begins with a letter and if it has ASCII in common
with the encoding that was detected.
-/
namespace XmlIndex
set_option autoImplicit false
open Grammar

namespace EncodingLabel

theorem lt_of_isAllowed {ch : Nat} (hAllowed : isAllowed ch = true) : ch < 0x80 := by
  simp only [isAllowed, CodePoint.isLetter, CodePoint.isDigit, Bool.or_eq_true, CodePoint.within_iff,
    beq_iff_eq] at hAllowed
  rcases hAllowed with (((hLetter | hDigit) | rfl) | rfl) | rfl
  · omega
  · omega
  all_goals decide

theorem isLetter_of_toUpper : ∀ ch < 0x80, (Char.ofNat ch).toUpper.isUpper = true →
    CodePoint.isLetter ch = true := by
  decide

end EncodingLabel

namespace Encoding
variable {label lead text : List Char} {e : Encoding}

theorem eq_append_of_afterLead? {rest : List Char} (hLead : afterLead? lead text = some rest) :
    text = lead ++ rest := by
  induction lead generalizing text with
  | nil => exact Option.some.inj hLead
  | cons c lead ih =>
    cases text with
    | nil => cases hLead
    | cons d text =>
      rw [afterLead?] at hLead
      split at hLead
      · rw [‹c = d›, ih hLead, List.cons_append]
      · cases hLead

/-- Every label begins with a letter. -/
theorem exists_eq_cons_of_ofUpper? (hLabel : ofUpper? label = some e) :
    ∃ c rest, label = c :: rest ∧ c.isUpper = true := by
  unfold ofUpper? at hLabel
  split at hLabel
  · rename_i h
    rcases h with rfl | rfl
    · exact ⟨'A', _, rfl, by decide⟩
    · exact ⟨'U', _, rfl, by decide⟩
  · split at hLabel
    · exact ⟨'U', _, ‹label = _›, by decide⟩
    · split at hLabel
      · exact ⟨'U', _, ‹label = _›, by decide⟩
      · split at hLabel
        · exact ⟨'U', _, ‹label = _›, by decide⟩
        · split at hLabel
          · exact ⟨'I', _, eq_append_of_afterLead? ‹_›, by decide⟩
          · obtain ⟨page, hPage, -⟩ := Option.bind_eq_some_iff.mp hLabel
            rcases Option.or_eq_some_iff.mp hPage with hLead | ⟨-, hLead⟩
            · exact ⟨'W', _, eq_append_of_afterLead? hLead, by decide⟩
            · exact ⟨'C', _, eq_append_of_afterLead? hLead, by decide⟩

end Encoding

section
variable {mark : ByteOrderMark} {detected e : Encoding}

theorem agrees_of_reconcile {label : String} (hOk : reconcile mark detected label = .ok e) :
    detected.Agrees e := by
  unfold reconcile at hOk
  repeat' split at hOk
  all_goals cases hOk
  all_goals first
    | exact .refl _
    | exact .inr ⟨by simp_all, by simp_all⟩

theorem isLabel_of_reconcile {value : Chars} (hAllowed : ∀ ch ∈ value, EncodingLabel.isAllowed ch = true)
    (hOk : reconcile mark detected (String.ofList (value.map Char.ofNat)) = .ok e) :
    Declaration.IsLabel value := by
  have hUpper : ∃ c rest, (value.map Char.ofNat).map Char.toUpper = c :: rest ∧ c.isUpper = true := by
    unfold reconcile at hOk
    rw [String.toList_ofList] at hOk
    split at hOk
    · exact ⟨'U', _, ‹_ = _›, by decide⟩
    · split at hOk
      · cases hOk
      · rename_i hLabel
        rw [Encoding.ofLabel?, String.toList_ofList] at hLabel
        exact Encoding.exists_eq_cons_of_ofUpper? hLabel
  obtain ⟨c, rest, hValue, hLetter⟩ := hUpper
  cases value with
  | nil => cases hValue
  | cons first value =>
    rw [List.forall_mem_cons] at hAllowed
    rw [← (List.cons.inj hValue).1] at hLetter
    exact ⟨EncodingLabel.isLetter_of_toUpper _ (EncodingLabel.lt_of_isAllowed hAllowed.1) hLetter, hAllowed.2⟩

def Grammar.Declaration.IsUtf8 (value : Chars) : Prop :=
  (value.map Char.ofNat).map Char.toUpper = "UTF-8".toList

theorem reconcile_utf8 {value : Chars} (hUtf8 : Declaration.IsUtf8 value) :
    reconcile mark .utf8 (String.ofList (value.map Char.ofNat)) = .ok .utf8 := by
  have hLabel : Encoding.ofLabel? (String.ofList (value.map Char.ofNat)) = some .utf8 := by
    rw [Encoding.ofLabel?, String.toList_ofList, hUtf8]
    rfl
  unfold reconcile
  rw [hLabel, String.toList_ofList, hUtf8, if_neg (by decide)]
  cases mark <;> rfl

end

end XmlIndex
