import XmlIndex.Index.LocationCache

/-! # Options

Whoever parses chooses whether runs of space between markup are recorded and how deep the location
cache goes.
-/
namespace XmlIndex
set_option autoImplicit false

inductive CacheDepth where
  | shallow
  | full
  | automatic
  deriving DecidableEq, Repr

namespace CacheDepth

/-- Longer documents have the deep cache unless it is asked for otherwise. -/
def threshold : Nat := 1024 * 1024

def levels (depth : CacheDepth) (docLength : Nat) : CacheLevels :=
  match depth with
  | .shallow => .three
  | .full => .five
  | .automatic => if threshold < docLength then .five else .three

def name : CacheDepth → String
  | .shallow => "shallow"
  | .full => "full"
  | .automatic => "auto"

def ofName? (name : String) : Option CacheDepth :=
  [CacheDepth.shallow, .full, .automatic].find? (·.name == name)

theorem ofName?_name (depth : CacheDepth) : ofName? depth.name = some depth := by
  cases depth <;> rfl

end CacheDepth

structure Options where
  recordWhitespace : Bool := false
  cacheDepth : CacheDepth := .automatic
  deriving DecidableEq, Repr

end XmlIndex
