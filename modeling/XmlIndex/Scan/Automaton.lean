import XmlIndex.Scan.Cursor

/-! # Automata over characters

Every repeated reading is an automaton: from a state and the next character it goes on, accepts or
rejects. A single driver runs them all. An automaton is also told the offset of the character, for
those that remember places.
-/
namespace XmlIndex
set_option autoImplicit false

inductive Verdict (σ α : Type) where
  | more (state : σ)
  | done (result : α)
  | reject (fault : Fault)

abbrev Automaton (σ α : Type) := σ → (place : Nat) → CodePoint → Verdict σ α

namespace Cursor

structure Advances (c c' : Cursor) : Prop where
  doc_eq : c'.doc = c.doc
  start_eq : c'.start = c.start
  stop_eq : c'.stop = c.stop
  offset_lt : c.offset < c'.offset
  offset_le : c'.offset ≤ c'.stop

end Cursor

namespace Scan

theorem charAt_width {c : Cursor} {offset ch width : Nat}
    (hRead : c.charAt offset = .ok (ch, width)) : 0 < width ∧ offset + width ≤ c.stop := by
  unfold Cursor.charAt at hRead
  split at hRead
  · cases hRead
    exact Encoding.decodeAt_width ‹_›
  · cases hRead

theorem next_advances {c c' : Cursor} {ch : CodePoint} (hNext : next c = .ok ch c') :
    c.Advances c' := by
  unfold next at hNext
  split at hNext
  · cases hNext
  · rename_i hRead
    have hWidth := charAt_width hRead
    cases hNext
    exact ⟨rfl, rfl, rfl, by simp only; omega, by simp only; omega⟩

/-- Runs an automaton from `state` over the characters that follow. -/
@[specialize] def drive {σ α : Type} (machine : Automaton σ α) (state : σ) : Scan α := fun c =>
  match _ : next c with
  | .error fault c' => .error fault c'
  | .ok ch c' =>
    match machine state c'.last ch with
    | .more state' => drive machine state' c'
    | .done result => .ok result c'
    | .reject fault => .error fault c'
termination_by c => c.stop - c.offset
decreasing_by
  have hAdvances := next_advances ‹next _ = _›
  have := hAdvances.stop_eq
  have := hAdvances.offset_lt
  have := hAdvances.offset_le
  omega

@[inline] def feed {σ α : Type} (machine : Automaton σ α) (state : σ) (ch : CodePoint) : Scan α := do
  match machine state (← last) ch with
  | .more state' => drive machine state'
  | .done result => pure result
  | .reject fault => throw fault

def nextAfter (skipped : CodePoint → Bool) : Scan CodePoint :=
  drive (fun _ _ ch => if skipped ch then .more () else .done ch) ()

def nextAfterSpace : Scan CodePoint :=
  nextAfter CodePoint.isSpace

def skipSpace (ch : CodePoint) : Scan CodePoint :=
  if CodePoint.isSpace ch then nextAfterSpace else pure ch

end Scan
end XmlIndex
