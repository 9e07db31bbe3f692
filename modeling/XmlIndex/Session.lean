import XmlIndex.Parse

/-! # Sessions

A session parses one document after another under the same options. It keeps its namespace scopes
from parse to parse, a spare draft for the parses that are to write into it, and the index of the
file parsed last until that is taken. Whatever an earlier parse has left is cleared before the next
one begins, so no result depends on the parses before it.
-/
namespace XmlIndex
set_option autoImplicit false

structure Session where
  options : Options
  spare : Draft
  scopes : Namespace.Scopes := {}
  pending : Option Index := none
  deriving DecidableEq

namespace Session

def start (options : Options) : Session :=
  { options, spare := .empty .three }

def parseRange (namespaces : Bool) (doc : ByteArray) (offset length : Nat) (s : Session) :
    Except Failure Index × Session :=
  let draft := Draft.empty (s.options.cacheDepth.levels length)
  let (result, w) := Workspace.parseRange s.options namespaces doc offset length ⟨draft, s.scopes⟩
  (result, { s with scopes := w.scopes })

def parseReusing (namespaces : Bool) (doc : ByteArray) (offset length : Nat) (s : Session) :
    Except Failure Index × Session :=
  let draft := s.spare.reset (s.options.cacheDepth.levels length)
  let (result, w) := Workspace.parseRange s.options namespaces doc offset length ⟨draft, s.scopes⟩
  (result, { s with spare := w.draft, scopes := w.scopes })

def parse (namespaces : Bool) (doc : ByteArray) (s : Session) : Except Failure Index × Session :=
  s.parseRange namespaces doc 0 doc.size

/-- Parses a file and keeps the index; a file that cannot be read has no contents. -/
def parseFile (namespaces : Bool) (contents : Option ByteArray) (s : Session) : Session :=
  match contents with
  | none => { s with pending := none }
  | some doc =>
    let (result, s) := s.parse namespaces doc
    { s with pending := result.toOption }

def take (s : Session) : Option Index × Session :=
  (s.pending, { s with pending := none })

/-- Gives an index up for the buffer it was made from; the rest goes back to the spare draft. -/
def recycle (x : Index) (s : Session) : ByteArray × Session :=
  let (buffer, tokens, cache) := x.parts
  (buffer, { s with spare := s.spare.reclaim tokens cache })

def reset (s : Session) : Session :=
  { s with spare := .empty .three, scopes := s.scopes.reset, pending := none }

def parseEach (namespaces : Bool) : List ByteArray → Session → List (Except Failure Index)
  | [], _ => []
  | doc :: docs, s =>
    let (result, s) := s.parse namespaces doc
    result :: parseEach namespaces docs s

end Session

/-- Parses each document on its own; results come in the order of the documents. -/
def parseAll (options : Options) (namespaces : Bool) (docs : List ByteArray) :
    List (Except Failure Index) :=
  (Session.start options).parseEach namespaces docs

end XmlIndex
