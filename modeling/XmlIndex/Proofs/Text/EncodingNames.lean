import Mathlib.Data.Nat.Digits.Defs
import XmlIndex.Proofs.Text.Labels

/-! # Names of encodings

Each encoding has its documented names: some are fixed, the others end in a number. A label is compared
with them in capitals, and its number is read by value. So a plus sign or zeros may precede the number,
and these labels apart only the documented names are known.
-/
namespace XmlIndex
set_option autoImplicit false

namespace Numeral
variable {value n : Nat} {text : List Char} {c : Char}

theorem extend?_eq_some_iff : extend? value text = some n ↔
    (∀ c ∈ text, c.isDigit = true) ∧ Nat.ofDigitChars 10 text value = n := by
  induction text generalizing value with
  | nil => simp [extend?]
  | cons c rest ih =>
    rw [extend?, List.forall_mem_cons, Nat.ofDigitChars_cons]
    split
    · rename_i hDigit
      rw [ih, and_iff_right hDigit]
      rfl
    · rename_i hOther
      simp [hOther]

theorem digitChar_of_isDigit (hDigit : c.isDigit = true) :
    c.toNat - '0'.toNat < 10 ∧ Nat.digitChar (c.toNat - '0'.toNat) = c := by
  simp only [Char.isDigit, Bool.and_eq_true, decide_eq_true_eq] at hDigit
  have hLeast : 48 ≤ c.toNat := UInt32.le_iff_toNat_le.mp hDigit.1
  have hGreatest : c.toNat ≤ 57 := UInt32.le_iff_toNat_le.mp hDigit.2
  have hSmall : c.toNat - '0'.toNat < 10 := by
    change c.toNat - 48 < 10
    omega
  refine ⟨hSmall, Char.toNat_inj.mp ?_⟩
  rw [Nat.toNat_digitChar_of_lt_ten hSmall]
  change 48 + (c.toNat - 48) = c.toNat
  omega

/-- Digits written after those of a number other than zero are the last digits of the value. -/
theorem toDigits_ofDigitChars (hPositive : 0 < value) (hDigits : ∀ c ∈ text, c.isDigit = true) :
    Nat.toDigits 10 (Nat.ofDigitChars 10 text value) = Nat.toDigits 10 value ++ text := by
  induction text generalizing value with
  | nil => simp
  | cons c rest ih =>
    obtain ⟨hDigit, hRest⟩ := List.forall_mem_cons.mp hDigits
    obtain ⟨hSmall, hSame⟩ := digitChar_of_isDigit hDigit
    rw [Nat.ofDigitChars_cons]
    calc
      Nat.toDigits 10 (Nat.ofDigitChars 10 rest (10 * value + (c.toNat - '0'.toNat)))
        = Nat.toDigits 10 (10 * value + (c.toNat - '0'.toNat)) ++ rest := ih (by omega) hRest
      _ = Nat.toDigits 10 value ++ Nat.toDigits 10 (c.toNat - '0'.toNat) ++ rest := by
        rw [Nat.toDigits_append_toDigits (by decide) hPositive hSmall]
      _ = Nat.toDigits 10 value ++ c :: rest := by
        rw [Nat.toDigits_of_lt_base hSmall, hSame, List.append_assoc, List.singleton_append]

/-- Digits are those of their value after some zeros. -/
theorem exists_zeros (hDigits : ∀ c ∈ text, c.isDigit = true) (hNonempty : text ≠ []) :
    ∃ zeros, text = List.replicate zeros '0' ++ Nat.toDigits 10 (Nat.ofDigitChars 10 text 0) := by
  induction text with
  | nil => exact absurd rfl hNonempty
  | cons c rest ih =>
    obtain ⟨hDigit, hRest⟩ := List.forall_mem_cons.mp hDigits
    obtain ⟨hSmall, hSame⟩ := digitChar_of_isDigit hDigit
    rw [Nat.ofDigitChars_cons, Nat.mul_zero, Nat.zero_add]
    rcases Nat.eq_zero_or_pos (c.toNat - '0'.toNat) with hZero | hPositive
    · rw [hZero] at hSame ⊢
      cases rest with
      | nil => exact ⟨0, by rw [← hSame]; rfl⟩
      | cons d rest =>
        obtain ⟨zeros, hZeros⟩ := ih hRest (List.cons_ne_nil _ _)
        refine ⟨zeros + 1, ?_⟩
        rw [List.replicate_succ, List.cons_append, ← hZeros, ← hSame]
        rfl
    · refine ⟨0, ?_⟩
      rw [toDigits_ofDigitChars hPositive hRest, Nat.toDigits_of_lt_base hSmall, hSame]
      rfl

theorem ofDigits?_eq_some_iff : ofDigits? text = some n ↔
    ∃ zeros, text = List.replicate zeros '0' ++ Nat.toDigits 10 n := by
  constructor
  · intro hValue
    cases text with
    | nil => cases hValue
    | cons c rest =>
      obtain ⟨hDigits, rfl⟩ := extend?_eq_some_iff.mp hValue
      exact exists_zeros hDigits (List.cons_ne_nil _ _)
  · rintro ⟨zeros, rfl⟩
    have hNonempty : List.replicate zeros '0' ++ Nat.toDigits 10 n ≠ [] := by
      simp [Nat.toDigits_ne_nil]
    obtain ⟨c, rest, hText⟩ := List.exists_cons_of_ne_nil hNonempty
    rw [hText, ofDigits?, ← hText, extend?_eq_some_iff]
    · constructor
      · intro c hc
        rcases List.mem_append.mp hc with hZero | hDigit
        · rw [List.eq_of_mem_replicate hZero]
          decide
        · exact Nat.isDigit_of_mem_toDigits (by decide) (by decide) hDigit
      · rw [Nat.ofDigitChars_append, Nat.ofDigitChars_replicate_zero, Nat.mul_zero]
        exact Nat.ofDigitChars_toDigits (by decide) (by decide)
    · intro hNil
      cases hNil

theorem ofList?_eq_some_iff : ofList? text = some n ↔
    ∃ sign zeros, (sign = [] ∨ sign = ['+']) ∧
      text = sign ++ (List.replicate zeros '0' ++ Nat.toDigits 10 n) := by
  constructor
  · intro hValue
    unfold ofList? at hValue
    split at hValue
    · obtain ⟨zeros, rfl⟩ := ofDigits?_eq_some_iff.mp hValue
      exact ⟨['+'], zeros, .inr rfl, rfl⟩
    · obtain ⟨zeros, rfl⟩ := ofDigits?_eq_some_iff.mp hValue
      exact ⟨[], zeros, .inl rfl, rfl⟩
  · rintro ⟨sign, zeros, rfl | rfl, rfl⟩
    · have hValue : ofDigits? (List.replicate zeros '0' ++ Nat.toDigits 10 n) = some n :=
        ofDigits?_eq_some_iff.mpr ⟨zeros, rfl⟩
      unfold ofList?
      split
      · rename_i digits hSigned
        -- A sign is no digit.
        rw [List.nil_append] at hSigned
        rw [hSigned, ofDigits?, extend?_eq_some_iff] at hValue
        · exact absurd (hValue.1 '+' List.mem_cons_self) (by decide)
        · intro hNil
          cases hNil
      · exact hValue
    · exact ofDigits?_eq_some_iff.mpr ⟨zeros, rfl⟩

end Numeral

/-- A name that is fixed, or that ends in a number. -/
inductive EncodingName where
  | fixed (text : String)
  | numbered (lead : String) (n : Nat)

namespace EncodingName

def text : EncodingName → List Char
  | .fixed text => text.toList
  | .numbered lead n => lead.toList ++ Nat.toDigits 10 n

/-- The name, perhaps with a plus sign and zeros before its number. -/
inductive Admits : EncodingName → List Char → Prop where
  | fixed (text : String) : Admits (.fixed text) text.toList
  | numbered (lead : String) (n zeros : Nat) {sign : List Char} : sign = [] ∨ sign = ['+'] →
      Admits (.numbered lead n) (lead.toList ++ (sign ++ (List.replicate zeros '0' ++ Nat.toDigits 10 n)))

def leads : List String :=
  ["ISO-8859-", "WINDOWS-", "CP"]

/-- Where a number is to begin stands a plus sign or a zero. -/
def Padded (label : List Char) : Prop :=
  ∃ lead ∈ leads, ∃ c ∈ ['+', '0'], lead.toList ++ [c] <+: label

theorem admits_text (name : EncodingName) : name.Admits name.text := by
  cases name with
  | fixed text => exact .fixed text
  | numbered lead n => exact .numbered lead n 0 (.inl rfl)

end EncodingName

namespace Encoding
open EncodingName

def isoNames (n : Nat) : List EncodingName :=
  [.numbered "ISO-8859-" n]

def windowsNames (n : Nat) : List EncodingName :=
  [.numbered "WINDOWS-" n, .numbered "CP" n]

def names : Encoding → List EncodingName
  | .ascii => [.fixed "ASCII", .fixed "US-ASCII"]
  | .utf8 => [.fixed "UTF-8"]
  | .utf16 .little => [.fixed "UTF-16LE"]
  | .utf16 .big => [.fixed "UTF-16BE"]
  | .latin1 => isoNames 1
  | .iso8859_2 => isoNames 2
  | .iso8859_3 => isoNames 3
  | .iso8859_4 => isoNames 4
  | .iso8859_5 => isoNames 5
  | .iso8859_6 => isoNames 6
  | .iso8859_7 => isoNames 7
  | .iso8859_8 => isoNames 8
  | .iso8859_9 => isoNames 9
  | .iso8859_10 => isoNames 10
  | .iso8859_11 => isoNames 11
  | .iso8859_13 => isoNames 13
  | .iso8859_14 => isoNames 14
  | .iso8859_15 => isoNames 15
  | .iso8859_16 => isoNames 16
  | .windows1250 => windowsNames 1250
  | .windows1251 => windowsNames 1251
  | .windows1252 => windowsNames 1252
  | .windows1253 => windowsNames 1253
  | .windows1254 => windowsNames 1254
  | .windows1255 => windowsNames 1255
  | .windows1256 => windowsNames 1256
  | .windows1257 => windowsNames 1257
  | .windows1258 => windowsNames 1258

variable {e : Encoding} {n : Nat} {label lead part : List Char}

theorem names_of_isoPart? (hPart : isoPart? n = some e) : e.names = isoNames n := by
  unfold isoPart? at hPart
  split at hPart <;> cases hPart <;> rfl

theorem names_of_windowsPage? (hPage : windowsPage? n = some e) : e.names = windowsNames n := by
  obtain ⟨before, after, hTable, -⟩ := List.lookup_eq_some_iff.mp hPage
  have hListed : (n, e) ∈ before ++ (n, e) :: after := List.mem_append_right before List.mem_cons_self
  rw [← hTable] at hListed
  simp only [List.mem_cons, Prod.mk.injEq, List.not_mem_nil, or_false] at hListed
  rcases hListed with ⟨rfl, rfl⟩ | ⟨rfl, rfl⟩ | ⟨rfl, rfl⟩ | ⟨rfl, rfl⟩ | ⟨rfl, rfl⟩ | ⟨rfl, rfl⟩ | ⟨rfl, rfl⟩ |
    ⟨rfl, rfl⟩ | ⟨rfl, rfl⟩ <;> rfl

/-- Of each encoding there are fixed names, or one with the number of a part or of a page. -/
theorem names_cases (e : Encoding) :
    (∃ n, e.names = isoNames n ∧ isoPart? n = some e) ∨
    (∃ n, e.names = windowsNames n ∧ windowsPage? n = some e) ∨
    ∀ name ∈ e.names, ∃ text, name = .fixed text ∧ ofUpper? text.toList = some e := by
  cases e with
  | ascii => exact .inr (.inr (by simp [names]; decide))
  | utf8 => exact .inr (.inr (by simp [names]; decide))
  | utf16 order => exact .inr (.inr (by cases order <;> simp [names] <;> decide))
  | windows1250 | windows1251 | windows1252 | windows1253 | windows1254 | windows1255 | windows1256 | windows1257
    | windows1258 => exact .inr (.inl ⟨_, rfl, rfl⟩)
  | _ => exact .inl ⟨_, rfl, rfl⟩

theorem afterLead?_append : afterLead? lead (lead ++ part) = some part := by
  induction lead with
  | nil => rfl
  | cons c lead ih => rw [List.cons_append, afterLead?, if_pos rfl, ih]

/-- A label with a number is none of the fixed names. -/
theorem ofUpper?_iso : ofUpper? ("ISO-8859-".toList ++ part) = (Numeral.ofList? part).bind isoPart? := by
  unfold ofUpper?
  rw [if_neg (by simp), if_neg (by simp), if_neg (by simp), if_neg (by simp), afterLead?_append]

theorem ofUpper?_windows :
    ofUpper? ("WINDOWS-".toList ++ part) = (Numeral.ofList? part).bind windowsPage? := by
  unfold ofUpper?
  rw [if_neg (by simp), if_neg (by simp), if_neg (by simp), if_neg (by simp), afterLead?_append]
  rfl

theorem ofUpper?_codePage : ofUpper? ("CP".toList ++ part) = (Numeral.ofList? part).bind windowsPage? := by
  unfold ofUpper?
  rw [if_neg (by simp), if_neg (by simp), if_neg (by simp), if_neg (by simp), afterLead?_append]
  rfl

theorem admits_of_ofUpper? (hLabel : ofUpper? label = some e) : ∃ name ∈ e.names, name.Admits label := by
  unfold ofUpper? at hLabel
  split at hLabel
  · cases hLabel
    rename_i hAscii
    rcases hAscii with rfl | rfl
    · exact ⟨_, List.mem_cons_self, .fixed "ASCII"⟩
    · exact ⟨_, List.mem_cons_of_mem _ List.mem_cons_self, .fixed "US-ASCII"⟩
  · split at hLabel
    · cases hLabel
      exact ⟨_, List.mem_cons_self, ‹label = _› ▸ .fixed "UTF-8"⟩
    · split at hLabel
      · cases hLabel
        exact ⟨_, List.mem_cons_self, ‹label = _› ▸ .fixed "UTF-16LE"⟩
      · split at hLabel
        · cases hLabel
          exact ⟨_, List.mem_cons_self, ‹label = _› ▸ .fixed "UTF-16BE"⟩
        · split at hLabel
          · rename_i part hLead
            obtain ⟨n, hNumber, hPart⟩ := Option.bind_eq_some_iff.mp hLabel
            obtain ⟨sign, zeros, hSign, rfl⟩ := Numeral.ofList?_eq_some_iff.mp hNumber
            rw [names_of_isoPart? hPart, eq_append_of_afterLead? hLead]
            exact ⟨_, List.mem_cons_self, .numbered _ n zeros hSign⟩
          · obtain ⟨part, hLead, hNumbered⟩ := Option.bind_eq_some_iff.mp hLabel
            obtain ⟨n, hNumber, hPage⟩ := Option.bind_eq_some_iff.mp hNumbered
            obtain ⟨sign, zeros, hSign, rfl⟩ := Numeral.ofList?_eq_some_iff.mp hNumber
            rw [names_of_windowsPage? hPage]
            rcases Option.or_eq_some_iff.mp hLead with hWindows | ⟨-, hPage⟩
            · rw [eq_append_of_afterLead? hWindows]
              exact ⟨_, List.mem_cons_self, .numbered _ n zeros hSign⟩
            · rw [eq_append_of_afterLead? hPage]
              exact ⟨_, List.mem_cons_of_mem _ List.mem_cons_self, .numbered _ n zeros hSign⟩

theorem ofUpper?_of_admits {name : EncodingName} (hName : name ∈ e.names) (hAdmits : name.Admits label) :
    ofUpper? label = some e := by
  rcases names_cases e with ⟨n, hNames, hPart⟩ | ⟨n, hNames, hPage⟩ | hFixed
  · rw [hNames] at hName
    obtain rfl := List.mem_singleton.mp hName
    cases hAdmits with
    | numbered _ _ zeros hSign =>
      rw [ofUpper?_iso, Numeral.ofList?_eq_some_iff.mpr ⟨_, zeros, hSign, rfl⟩]
      exact hPart
  · rw [hNames] at hName
    rcases List.mem_cons.mp hName with rfl | hOther
    · cases hAdmits with
      | numbered _ _ zeros hSign =>
        rw [ofUpper?_windows, Numeral.ofList?_eq_some_iff.mpr ⟨_, zeros, hSign, rfl⟩]
        exact hPage
    · obtain rfl := List.mem_singleton.mp hOther
      cases hAdmits with
      | numbered _ _ zeros hSign =>
        rw [ofUpper?_codePage, Numeral.ofList?_eq_some_iff.mpr ⟨_, zeros, hSign, rfl⟩]
        exact hPage
  · obtain ⟨text, rfl, hKnown⟩ := hFixed name hName
    cases hAdmits
    exact hKnown

theorem ofUpper?_eq_some_iff : ofUpper? label = some e ↔ ∃ name ∈ e.names, name.Admits label := by
  constructor
  · intro hLabel
    exact admits_of_ofUpper? hLabel
  · rintro ⟨name, hName, hAdmits⟩
    exact ofUpper?_of_admits hName hAdmits

theorem padded_iff : Padded label ↔
    (leads.any fun lead => ['+', '0'].any fun c => (lead.toList ++ [c]).isPrefixOf label) = true := by
  simp only [Padded, List.any_eq_true, List.isPrefixOf_iff_prefix]

theorem not_padded_text : ∀ e ∈ all, ∀ name ∈ e.names, ¬Padded name.text := by
  have hAll : (all.all fun e => e.names.all fun name => !leads.any fun lead =>
      ['+', '0'].any fun c => (lead.toList ++ [c]).isPrefixOf name.text) = true := by
    decide +kernel
  intro e he name hName
  have hPlain := List.all_eq_true.mp (List.all_eq_true.mp hAll e he) name hName
  rw [padded_iff, Bool.not_eq_true]
  exact (Bool.not_eq_true' _).mp hPlain

theorem mem_leads_of_mem_names {start : String} (hName : .numbered start n ∈ e.names) : start ∈ leads := by
  rcases names_cases e with ⟨m, hNames, -⟩ | ⟨m, hNames, -⟩ | hFixed
  · rw [hNames] at hName
    cases List.mem_singleton.mp hName
    decide
  · rw [hNames] at hName
    rcases List.mem_cons.mp hName with hWindows | hPage
    · cases hWindows
      decide
    · cases List.mem_singleton.mp hPage
      decide
  · obtain ⟨text, hText, -⟩ := hFixed _ hName
    cases hText

/-- What a name admits is the name as it is documented, unless its number is padded. -/
theorem eq_text_of_admits {name : EncodingName} (hName : name ∈ e.names) (hAdmits : name.Admits label)
    (hPlain : ¬Padded label) : label = name.text := by
  cases hAdmits with
  | fixed text => rfl
  | numbered lead n zeros hSign =>
    have hLead := mem_leads_of_mem_names hName
    rcases hSign with rfl | rfl
    · cases zeros with
      | zero => rfl
      | succ zeros =>
        refine absurd ⟨lead, hLead, '0', by decide, ?_⟩ hPlain
        rw [List.prefix_append_right_inj, List.replicate_succ]
        exact List.cons_prefix_cons.mpr ⟨rfl, List.nil_prefix⟩
    · refine absurd ⟨lead, hLead, '+', by decide, ?_⟩ hPlain
      rw [List.prefix_append_right_inj]
      exact List.cons_prefix_cons.mpr ⟨rfl, List.nil_prefix⟩

/-- A label is known just if, in capitals, it is a documented name, or would be but for a plus sign or zeros before
its number. The documented names are the labels that are known and not padded. -/
theorem ofLabel?_eq_some_iff_admits (s : String) (e : Encoding) :
    (ofLabel? s = some e ↔ ∃ name ∈ e.names, name.Admits (s.toList.map Char.toUpper)) ∧
      ((∃ name ∈ e.names, s.toList.map Char.toUpper = name.text) ↔
        ofLabel? s = some e ∧ ¬Padded (s.toList.map Char.toUpper)) := by
  refine ⟨ofUpper?_eq_some_iff, ?_⟩
  constructor
  · rintro ⟨name, hName, hText⟩
    rw [ofLabel?, hText]
    exact ⟨ofUpper?_of_admits hName name.admits_text, not_padded_text e e.mem_all name hName⟩
  · rintro ⟨hLabel, hPlain⟩
    obtain ⟨name, hName, hAdmits⟩ := admits_of_ofUpper? hLabel
    exact ⟨name, hName, eq_text_of_admits hName hAdmits hPlain⟩

example : ofLabel? "Iso-8859-01" = some .latin1 := by decide

end Encoding
end XmlIndex
