import XmlIndex.Text.CodePoint

/-! # Document encodings

The encodings a document can be indexed in, with the numeric codes that index files record and the
labels a declaration may name them by. Bare `UTF-16` is no label here: its byte order comes from
the byte order mark.
-/
namespace XmlIndex
set_option autoImplicit false

inductive ByteOrder where
  | big
  | little
  deriving DecidableEq, Repr

inductive Encoding where
  | ascii
  | latin1
  | utf8
  | iso8859_2
  | iso8859_3
  | iso8859_4
  | iso8859_5
  | iso8859_6
  | iso8859_7
  | iso8859_8
  | iso8859_9
  | iso8859_10
  | iso8859_11
  | iso8859_13
  | iso8859_14
  | iso8859_15
  | iso8859_16
  | windows1250
  | windows1251
  | windows1252
  | windows1253
  | windows1254
  | windows1255
  | windows1256
  | windows1257
  | windows1258
  | utf16 (order : ByteOrder)
  deriving DecidableEq, Repr

namespace Encoding

def all : List Encoding :=
  [.ascii, .latin1, .utf8, .iso8859_2, .iso8859_3, .iso8859_4, .iso8859_5, .iso8859_6,
    .iso8859_7, .iso8859_8, .iso8859_9, .iso8859_10, .iso8859_11, .iso8859_13, .iso8859_14,
    .iso8859_15, .iso8859_16, .windows1250, .windows1251, .windows1252, .windows1253,
    .windows1254, .windows1255, .windows1256, .windows1257, .windows1258, .utf16 .big,
    .utf16 .little]

theorem mem_all (encoding : Encoding) : encoding ∈ all := by
  cases encoding with
  | utf16 order => cases order <;> decide
  | _ => decide

/-- The code recorded in index files; 13 is left free for the part of ISO 8859 that was never
published. -/
def code : Encoding → Nat
  | .ascii => 0
  | .latin1 => 1
  | .utf8 => 2
  | .iso8859_2 => 3
  | .iso8859_3 => 4
  | .iso8859_4 => 5
  | .iso8859_5 => 6
  | .iso8859_6 => 7
  | .iso8859_7 => 8
  | .iso8859_8 => 9
  | .iso8859_9 => 10
  | .iso8859_10 => 11
  | .iso8859_11 => 12
  | .iso8859_13 => 14
  | .iso8859_14 => 15
  | .iso8859_15 => 16
  | .iso8859_16 => 17
  | .windows1250 => 18
  | .windows1251 => 19
  | .windows1252 => 20
  | .windows1253 => 21
  | .windows1254 => 22
  | .windows1255 => 23
  | .windows1256 => 24
  | .windows1257 => 25
  | .windows1258 => 26
  | .utf16 .big => 63
  | .utf16 .little => 64

def ofCode? (n : Nat) : Option Encoding :=
  all.find? fun encoding => encoding.code == n

theorem ofCode?_code (encoding : Encoding) : ofCode? encoding.code = some encoding := by
  cases encoding with
  | utf16 order => cases order <;> rfl
  | _ => rfl

theorem code_of_ofCode?_eq_some {n : Nat} {encoding : Encoding}
    (hFound : ofCode? n = some encoding) : encoding.code = n := by
  simpa using List.find?_some hFound

def name : Encoding → String
  | .ascii => "US-ASCII"
  | .latin1 => "ISO-8859-1"
  | .utf8 => "UTF-8"
  | .iso8859_2 => "ISO-8859-2"
  | .iso8859_3 => "ISO-8859-3"
  | .iso8859_4 => "ISO-8859-4"
  | .iso8859_5 => "ISO-8859-5"
  | .iso8859_6 => "ISO-8859-6"
  | .iso8859_7 => "ISO-8859-7"
  | .iso8859_8 => "ISO-8859-8"
  | .iso8859_9 => "ISO-8859-9"
  | .iso8859_10 => "ISO-8859-10"
  | .iso8859_11 => "ISO-8859-11"
  | .iso8859_13 => "ISO-8859-13"
  | .iso8859_14 => "ISO-8859-14"
  | .iso8859_15 => "ISO-8859-15"
  | .iso8859_16 => "ISO-8859-16"
  | .windows1250 => "WINDOWS-1250"
  | .windows1251 => "WINDOWS-1251"
  | .windows1252 => "WINDOWS-1252"
  | .windows1253 => "WINDOWS-1253"
  | .windows1254 => "WINDOWS-1254"
  | .windows1255 => "WINDOWS-1255"
  | .windows1256 => "WINDOWS-1256"
  | .windows1257 => "WINDOWS-1257"
  | .windows1258 => "WINDOWS-1258"
  | .utf16 .big => "UTF-16BE"
  | .utf16 .little => "UTF-16LE"

def isUtf16 : Encoding → Bool
  | .utf16 _ => true
  | _ => false

def unitShift (encoding : Encoding) : Nat :=
  if encoding.isUtf16 then 1 else 0

def unitSize (encoding : Encoding) : Nat :=
  if encoding.isUtf16 then 2 else 1

theorem unitSize_pos (encoding : Encoding) : 0 < encoding.unitSize := by
  unfold unitSize
  split <;> decide

end Encoding
end XmlIndex
