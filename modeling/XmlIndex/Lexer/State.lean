import XmlIndex.Index.Draft
import XmlIndex.Namespace.Scopes
import XmlIndex.Text.Detection

/-! # The state of a lexer

A lexer reads a document through its cursor and writes tokens into its draft as it goes. Places and
lengths are bytes of the document until a token is written, which counts code units. The depth of
a token is the number of open elements less one, so it is -1 outside the root.
-/
namespace XmlIndex
set_option autoImplicit false

/-- A stretch of the document, in bytes. -/
structure Span where
  offset : Nat
  length : Nat
  deriving DecidableEq, Repr

structure Name where
  offset : Nat
  length : Nat
  prefixLength : Nat
  deriving DecidableEq, Repr

namespace Name

def span (name : Name) : Span :=
  ⟨name.offset, name.length⟩

/-- The part after the colon, which takes one code unit. -/
def localSpan (name : Name) (unitSize : Nat) : Span :=
  ⟨name.offset + name.prefixLength + unitSize, name.length - (name.prefixLength + unitSize)⟩

def toPrefixed (name : Name) (unitSize : Nat) : PrefixedName :=
  ⟨name.offset, name.prefixLength, (name.localSpan unitSize).offset, (name.localSpan unitSize).length⟩

end Name

structure Lexer where
  cursor : Cursor
  mark : ByteOrderMark
  namespaces : Bool
  recordWhitespace : Bool
  /-- Names of the open elements, the innermost first. -/
  openTags : List Span
  /-- Names of the attributes of the current start tag. -/
  attributes : List Span
  maxDepth : Nat
  hasDoctype : Bool
  scopes : Namespace.Scopes
  draft : Draft

def Lexer.depth (s : Lexer) : Int :=
  s.openTags.length - 1

def Lexer.units (s : Lexer) (bytes : Nat) : Nat :=
  bytes / s.cursor.encoding.unitSize

abbrev Lex := EStateM Fault Lexer

namespace Lex
variable {α : Type}

@[inline] def read (action : Scan α) : Lex α := fun s =>
  match action s.cursor with
  | .ok a cursor => .ok a { s with cursor }
  | .error fault cursor => .error fault { s with cursor }

@[inline] def look (view : Lexer → α) : Lex α := fun s => .ok (view s) s

@[inline] def update (change : Lexer → Lexer) : Lex Unit := fun s => .ok () (change s)

def fail (cause : SyntaxFault) : Lex α :=
  throw (.structural cause none)

def require (condition : Bool) (cause : SyntaxFault) : Lex Unit :=
  if condition then pure () else throw (.structural cause none)

def requireAt (offset : Nat) (condition : Bool) (cause : SyntaxFault) : Lex Unit :=
  if condition then pure () else throw (.structural cause (some offset))

def emit (kind : TokenKind) (span : Span) : Lex Unit :=
  update fun s =>
    let token := ⟨kind, s.depth, s.units span.offset, s.units span.length⟩
    { s with draft := s.draft.write token }

def emitBounded (kind : TokenKind) (span : Span) : Lex Unit := do
  let length ← look (·.units span.length)
  requireAt span.offset (length ≤ Token.maxLength) (.tooLong kind)
  emit kind span

def emitText (kind : TokenKind) (span : Span) : Lex Unit :=
  update fun s =>
    let depth := s.depth
    let offset := s.units span.offset
    let length := s.units span.length
    { s with draft := s.draft.writeText kind depth offset length }

def checkName (name : Name) : Lex Unit := do
  let prefixLength ← look (·.units name.prefixLength)
  let length ← look (·.units name.length)
  requireAt name.offset
    (prefixLength ≤ Token.maxPrefixLength && length ≤ Token.maxNameLength) .longName

def nameField (s : Lexer) (name : Name) : Nat :=
  Token.qualifiedLength (s.units name.prefixLength) (s.units name.length)

def emitName (kind : TokenKind) (name : Name) : Lex Unit := do
  checkName name
  update fun s =>
    let token := ⟨kind, s.depth, s.units name.offset, nameField s name⟩
    { s with draft := s.draft.write token }

def emitElement (name : Name) : Lex Unit := do
  checkName name
  update fun s =>
    let depth := s.depth
    let offset := s.units name.offset
    let field := nameField s name
    { s with draft := s.draft.writeElement depth offset field }

/-- Writes a run of space between markup, if such runs are recorded. -/
def emitSpace (place stop : Nat) : Lex Unit := do
  let wanted ← look fun s => s.recordWhitespace && !s.openTags.isEmpty && decide (place < stop)
  if wanted then emitText .characterData ⟨place, stop - place⟩ else pure ()

def unitSize : Lex Nat :=
  look (·.cursor.encoding.unitSize)

def outsideRoot : Lex Bool :=
  look (·.openTags.isEmpty)

/-- The scope of the start tag opens and its names are qualified. -/
def closeScope : Lex Unit := fun s =>
  if s.namespaces then
    match Namespace.Scopes.close s.cursor s.scopes with
    | .ok () scopes => .ok () { s with scopes }
    | .error fault scopes => .error fault { s with scopes }
  else .ok () s

end Lex
end XmlIndex
