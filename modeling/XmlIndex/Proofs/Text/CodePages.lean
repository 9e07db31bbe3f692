import XmlIndex.Text.CodePage
import XmlIndex.Text.CodePoint

/-! # Laws of code pages

All that is relied on of a page: its lower half is ASCII, its upper half has neither ASCII nor surrogates,
and no two bytes stand for one character. One pass over a table checks this, with the characters that came
before as the bits of a number.
-/
namespace XmlIndex
set_option autoImplicit false

namespace CodePage

structure Lawful (page : CodePage) : Prop where
  lower : ∀ byte < 0x80, page.codePoint? byte = some byte
  upper : ∀ byte c, 0x80 ≤ byte → page.codePoint? byte = some c → 0x80 ≤ c ∧ c < 0xD800
  injective : ∀ byte byte' c, page.codePoint? byte = some c → page.codePoint? byte' = some c → byte = byte'

/-- Whether each entry is a character that an upper byte may stand for and that is not yet seen, or 0. -/
def admissible : (table : List Nat) → (seen : Nat) → Bool
  | [], _ => true
  | c :: rest, seen =>
    (c.beq 0 || Nat.ble 0x80 c && Nat.blt c 0xD800 && !seen.testBit c) && admissible rest (seen ||| 1 <<< c)

variable {page : CodePage} {table : List Nat} {seen byte c i j : Nat}

theorem admissible_upper (page : CodePage) : admissible page.upper.toList 0 = true := by
  cases page <;> decide +kernel

theorem admissible_mem (hTable : admissible table seen = true) (hc : c ∈ table) (hMapped : c ≠ 0) :
    (0x80 ≤ c ∧ c < 0xD800) ∧ seen.testBit c = false := by
  induction table generalizing seen with
  | nil => cases hc
  | cons d rest ih =>
    simp only [admissible, Bool.and_eq_true, Bool.or_eq_true, Nat.beq_eq, Nat.ble_eq, Nat.blt_eq,
      Bool.not_eq_true'] at hTable
    cases hc with
    | head => exact hTable.1.resolve_left hMapped
    | tail _ hc =>
      obtain ⟨hRange, hUnseen⟩ := ih hTable.2 hc
      rw [Nat.testBit_or, Bool.or_eq_false_iff] at hUnseen
      exact ⟨hRange, hUnseen.1⟩

theorem admissible_getElem (hTable : admissible table seen = true) (hi : i < table.length) (hj : j < table.length)
    (hMapped : table[i] ≠ 0) (hSame : table[i] = table[j]) : i = j := by
  induction table generalizing seen i j with
  | nil => cases hi
  | cons d rest ih =>
    have hRest := (Bool.and_eq_true_iff.mp hTable).2
    -- The bit of the first entry is set while the rest is checked.
    have hFresh : ∀ c ∈ rest, c ≠ 0 → c ≠ d := by
      rintro c hc hNonzero rfl
      have hUnseen := (admissible_mem hRest hc hNonzero).2
      simp [Nat.testBit_or] at hUnseen
    cases i with
    | zero =>
      cases j with
      | zero => rfl
      | succ j => exact absurd hSame.symm (hFresh _ (List.getElem_mem _) (hSame ▸ hMapped))
    | succ i =>
      cases j with
      | zero => exact absurd hSame (hFresh _ (List.getElem_mem _) hMapped)
      | succ j =>
        rw [ih hRest (Nat.lt_of_succ_lt_succ hi) (Nat.lt_of_succ_lt_succ hj) hMapped hSame]

/-- A byte is its own character, or the character is its entry in the table. -/
theorem codePoint?_cases (hMapped : page.codePoint? byte = some c) :
    byte < 0x80 ∧ byte = c ∨
      0x80 ≤ byte ∧ (0x80 ≤ c ∧ c < 0xD800) ∧ page.upper.toList[byte - 0x80]? = some c := by
  unfold codePoint? at hMapped
  split at hMapped
  · exact .inl ⟨‹_›, Option.some.inj hMapped⟩
  · rename_i hUpper
    split at hMapped
    · cases hMapped
    · cases hMapped
    · rename_i d hNonzero hEntry
      obtain rfl := Option.some.inj hMapped
      rw [← Array.getElem?_toList] at hEntry
      have hBounds := admissible_mem (admissible_upper page) (List.mem_of_getElem? hEntry) fun h => hNonzero (h ▸ rfl)
      exact .inr ⟨Nat.not_lt.mp hUpper, hBounds.1, hEntry⟩

theorem lawful (page : CodePage) : page.Lawful where
  lower byte hLower := if_pos hLower
  upper byte c hUpper hMapped := by
    obtain ⟨hLower, -⟩ | ⟨-, hBounds, -⟩ := codePoint?_cases hMapped
    · exact absurd hLower (Nat.not_lt.mpr hUpper)
    · exact hBounds
  injective byte byte' c hMapped hMapped' := by
    obtain ⟨hLower, rfl⟩ | ⟨hUpper, hBounds, hEntry⟩ := codePoint?_cases hMapped <;>
      obtain ⟨hLower', hSame⟩ | ⟨hUpper', hBounds', hEntry'⟩ := codePoint?_cases hMapped'
    · exact hSame.symm
    · omega
    · omega
    · have hNonzero : c ≠ 0 := Nat.ne_of_gt (Nat.lt_of_lt_of_le (by decide) hBounds.1)
      obtain ⟨hi, hEntry⟩ := List.getElem?_eq_some_iff.mp hEntry
      obtain ⟨hj, hEntry'⟩ := List.getElem?_eq_some_iff.mp hEntry'
      have hPlace := admissible_getElem (admissible_upper page) hi hj (hEntry.symm ▸ hNonzero)
        (hEntry.trans hEntry'.symm)
      omega

namespace Lawful
variable (hLawful : page.Lawful)
include hLawful

/-- A character of ASCII has no other byte than its own. -/
theorem eq_of_lt (hMapped : page.codePoint? byte = some c) (hAscii : c < 0x80) : byte = c := by
  obtain hLower | hUpper := Nat.lt_or_ge byte 0x80
  · rw [hLawful.lower byte hLower] at hMapped
    exact Option.some.inj hMapped
  · have hBounds := hLawful.upper byte c hUpper hMapped
    omega

theorem isScalar (hMapped : page.codePoint? byte = some c) : CodePoint.IsScalar c := by
  obtain hLower | hUpper := Nat.lt_or_ge byte 0x80
  · rw [hLawful.lower byte hLower] at hMapped
    obtain rfl := Option.some.inj hMapped
    exact .inl (Nat.lt_trans hLower (by decide))
  · exact .inl (hLawful.upper byte c hUpper hMapped).2

end Lawful
end CodePage
end XmlIndex
