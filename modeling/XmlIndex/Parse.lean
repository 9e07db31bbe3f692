import XmlIndex.Index.Basic
import XmlIndex.Lexer.Progress
import XmlIndex.Options

/-! # Parsing

A range of a buffer is parsed under options: its encoding is detected, its lexer runs phase by
phase, and the draft becomes an index. Offsets in the index count from the start of the buffer. A
fault of the lexer is reported at the offset that it names, or else at the character read last.

A parse works in a workspace, which it leaves behind as it is when the parse ends: nothing is tidied
up after a failure.
-/
namespace XmlIndex
set_option autoImplicit false

namespace Lex

/-- Goes from phase to phase until the document is complete. -/
def run (phase : Phase) : Lex Unit := fun s =>
  match _ : step phase s with
  | .ok none s' => .ok () s'
  | .ok (some phase') s' => run phase' s'
  | .error fault s' => .error fault s'
termination_by s => s.cursor.stop - s.cursor.offset
decreasing_by
  have hAdvances := step_advances ‹step _ _ = _›
  have := hAdvances.stop_eq
  have := hAdvances.offset_lt
  have := hAdvances.offset_le
  omega

end Lex

structure Workspace where
  draft : Draft
  scopes : Namespace.Scopes := {}
  deriving DecidableEq, Repr

namespace Lexer

/-- The failure that a fault of the lexer amounts to; the end of the document has no place. -/
def failure (s : Lexer) (fault : Fault) : Failure :=
  match fault with
  | .endOfDocument => ⟨.endOfDocument, none⟩
  | fault => ⟨fault, some (s.cursor.position (fault.offset?.getD s.cursor.last))⟩

/-- The lexer at the start of a document that lies between `offset` and `stop`. The draft goes on
from what has been written into it, the scopes begin anew. -/
def atStart (options : Options) (namespaces : Bool) (detected : Detected) (doc : ByteArray)
    (offset stop : Nat) (workspace : Workspace) : Lexer where
  cursor := .atStart doc (offset + detected.mark.size) stop detected.encoding
  mark := detected.mark
  namespaces
  recordWhitespace := options.recordWhitespace
  openTags := []
  attributes := []
  maxDepth := 0
  hasDoctype := false
  scopes := workspace.scopes.reset
  draft := workspace.draft.write ⟨.document, -1, 0, 0⟩

theorem scopes_atStart (options : Options) (namespaces : Bool) (detected : Detected) (doc : ByteArray)
    (offset stop : Nat) (workspace : Workspace) :
    (atStart options namespaces detected doc offset stop workspace).scopes = {} :=
  workspace.scopes.reset_eq

def workspace (s : Lexer) : Workspace :=
  ⟨s.draft, s.scopes⟩

def index (s : Lexer) (doc : ByteArray) (offset length : Nat) : Index × Workspace :=
  let ((tokens, cache, root), draft) := s.draft.finish.take
  ({ buffer := doc
     docOffset := offset
     docLength := length
     encoding := s.cursor.encoding
     namespaces := s.namespaces
     maxDepth := s.maxDepth
     root, tokens, cache },
    ⟨draft, s.scopes⟩)

end Lexer

namespace Workspace

/-- Parses the document of `length` bytes at `offset` into the draft of the workspace. -/
def parseRange (options : Options) (namespaces : Bool) (doc : ByteArray) (offset length : Nat)
    (w : Workspace) : Except Failure Index × Workspace :=
  if doc.size < offset + length then
    (.error ⟨.structural (.invalidRange offset length doc.size) none, none⟩, w)
  else
    match detect doc offset (offset + length) namespaces with
    | .error cause => (.error ⟨.encoding cause, none⟩, w)
    | .ok detected =>
      match Lex.run .start (.atStart options namespaces detected doc offset (offset + length) w) with
      | .error fault s => (.error (s.failure fault), s.workspace)
      | .ok () s =>
        let (x, w) := s.index doc offset length
        (.ok x, w)

end Workspace

/-- Parses the document of `length` bytes at `offset`, in a workspace of its own. -/
def parseRange (options : Options) (namespaces : Bool) (doc : ByteArray) (offset length : Nat) :
    Except Failure Index :=
  (Workspace.parseRange options namespaces doc offset length
    { draft := .empty (options.cacheDepth.levels length) }).1

def parse (options : Options) (namespaces : Bool) (doc : ByteArray) : Except Failure Index :=
  parseRange options namespaces doc 0 doc.size

end XmlIndex
