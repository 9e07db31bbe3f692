import XmlIndex.Text.Encoding

/-! # Encoding labels

A label names an encoding regardless of the case of its letters. The part number of an ISO 8859
or Windows label is a numeral: digits after an optional plus sign, any number of leading zeros.
-/
namespace XmlIndex
set_option autoImplicit false

def Numeral.extend? (value : Nat) : List Char → Option Nat
  | [] => some value
  | c :: rest => if c.isDigit then extend? (10 * value + (c.toNat - 48)) rest else none

def Numeral.ofDigits? : List Char → Option Nat
  | [] => none
  | digits => Numeral.extend? 0 digits

def Numeral.ofList? : List Char → Option Nat
  | '+' :: digits => ofDigits? digits
  | digits => ofDigits? digits

namespace Encoding

def afterLead? : List Char → List Char → Option (List Char)
  | [], text => some text
  | _ :: _, [] => none
  | c :: lead, d :: text => if c = d then afterLead? lead text else none

def isoPart? : Nat → Option Encoding
  | 1 => some .latin1
  | 2 => some .iso8859_2
  | 3 => some .iso8859_3
  | 4 => some .iso8859_4
  | 5 => some .iso8859_5
  | 6 => some .iso8859_6
  | 7 => some .iso8859_7
  | 8 => some .iso8859_8
  | 9 => some .iso8859_9
  | 10 => some .iso8859_10
  | 11 => some .iso8859_11
  | 13 => some .iso8859_13
  | 14 => some .iso8859_14
  | 15 => some .iso8859_15
  | 16 => some .iso8859_16
  | _ => none

def windowsPage? (n : Nat) : Option Encoding :=
  [(1250, windows1250), (1251, windows1251), (1252, windows1252), (1253, windows1253),
    (1254, windows1254), (1255, windows1255), (1256, windows1256), (1257, windows1257),
    (1258, windows1258)].lookup n

def ofUpper? (label : List Char) : Option Encoding :=
  if label = "ASCII".toList ∨ label = "US-ASCII".toList then some .ascii
  else if label = "UTF-8".toList then some .utf8
  else if label = "UTF-16LE".toList then some (.utf16 .little)
  else if label = "UTF-16BE".toList then some (.utf16 .big)
  else match afterLead? "ISO-8859-".toList label with
    | some part => (Numeral.ofList? part).bind isoPart?
    | none =>
      ((afterLead? "WINDOWS-".toList label).or (afterLead? "CP".toList label)).bind fun page =>
        (Numeral.ofList? page).bind windowsPage?

def ofLabel? (label : String) : Option Encoding :=
  ofUpper? (label.toList.map Char.toUpper)

end Encoding
end XmlIndex
