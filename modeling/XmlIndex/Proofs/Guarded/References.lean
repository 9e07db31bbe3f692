import XmlIndex.Proofs.Guarded.Decoding
import XmlIndex.Scan.Progress

/-! # Guarded automata

An automaton may be tested at every character before it moves on. The name of an entity is gathered in a
buffer that has room for the longest name; no state that a reference is read through has more in it.
-/
namespace XmlIndex
set_option autoImplicit false

namespace Guarded
variable {σ τ α β : Type}

def ofResult : EStateM.Result Fault σ α → EStateM.Result (Mishap Fault) σ α
  | .ok a s => .ok a s
  | .error fault s => .error (.fault fault) s

def lift (action : EStateM Fault σ α) : EStateM (Mishap Fault) σ α :=
  fun s => ofResult (action s)

def ask (question : σ → Guarded Fault α) : EStateM (Mishap Fault) σ α := fun s =>
  match question s with
  | .ok a => .ok a s
  | .error mishap => .error mishap s

abbrev Reading := EStateM (Mishap Fault) Cursor

/-- Runs an automaton over the characters that follow, each of which is tested first. -/
@[specialize] def drive (machine : Automaton σ α) (test : σ → (place : Nat) → CodePoint → Option Hazard) (state : σ) :
    Reading α := fun c =>
  match _ : Scan.next c with
  | .error fault c' => .error (.fault fault) c'
  | .ok ch c' =>
    match test state c'.last ch with
    | some hazard => .error (.hazard hazard) c'
    | none =>
      match machine state c'.last ch with
      | .more state' => drive machine test state' c'
      | .done result => .ok result c'
      | .reject fault => .error (.fault fault) c'
termination_by c => c.stop - c.offset
decreasing_by
  have hAdvances := Scan.next_advances ‹Scan.next _ = _›
  have := hAdvances.stop_eq
  have := hAdvances.offset_lt
  have := hAdvances.offset_le
  omega

/-- An automaton runs through if there is an invariant of its states and cursors under which its tests succeed. -/
theorem drive_eq {machine : Automaton σ α} {test : σ → Nat → CodePoint → Option Hazard} {P : σ → Cursor → Prop}
    (hTest : ∀ {state c ch c'}, P state c → Scan.next c = .ok ch c' → test state c'.last ch = none)
    (hKeeps : ∀ {state c ch c' state'}, P state c → Scan.next c = .ok ch c' →
      machine state c'.last ch = .more state' → P state' c')
    {state : σ} {c : Cursor} (hHolds : P state c) :
    drive machine test state c = ofResult (Scan.drive machine state c) := by
  fun_induction Scan.drive machine state c with
  | case1 state c fault c' hNext =>
    rw [drive]
    split
    · rename_i hNext'
      cases hNext.symm.trans hNext'
      rfl
    · rename_i hNext'
      cases hNext.symm.trans hNext'
  | case2 state c ch c' hNext state' hMore ih =>
    rw [drive]
    split
    · rename_i hNext'
      cases hNext.symm.trans hNext'
    · rename_i hNext'
      cases hNext.symm.trans hNext'
      rw [hTest hHolds hNext, hMore]
      exact ih (hKeeps hHolds hNext hMore)
  | case3 state c ch c' hNext result hDone =>
    rw [drive]
    split
    · rename_i hNext'
      cases hNext.symm.trans hNext'
    · rename_i hNext'
      cases hNext.symm.trans hNext'
      rw [hTest hHolds hNext, hDone]
      rfl
  | case4 state c ch c' hNext fault hReject =>
    rw [drive]
    split
    · rename_i hNext'
      cases hNext.symm.trans hNext'
    · rename_i hNext'
      cases hNext.symm.trans hNext'
      rw [hTest hHolds hNext, hReject]
      rfl

/-- A name of so many characters is given to the table, or the next character is put into the buffer. -/
def nameTest (length : Nat) (ch : CodePoint) : Option Hazard :=
  if ch = CodePoint.semicolon then if length ≤ Reference.maxNameLength then none else some .slice
  else if length = Reference.maxNameLength then none
  else if length < Reference.maxNameLength then none
  else some .element

def referenceTest : Reference.State → CodePoint → Option Hazard
  | .name reversed, ch => nameTest reversed.length ch
  | .start, ch => nameTest 0 ch
  | _, _ => none

def Fits : Reference.State → Prop
  | .name reversed => reversed.length ≤ Reference.maxNameLength
  | _ => True

theorem nameTest_of_le {length : Nat} {ch : CodePoint} (hFits : length ≤ Reference.maxNameLength) :
    nameTest length ch = none := by
  unfold nameTest
  rw [if_pos hFits]
  split
  · rfl
  · split
    · rfl
    · exact if_pos (by omega)

theorem referenceTest_of_fits {state : Reference.State} {ch : CodePoint} (hFits : Fits state) :
    referenceTest state ch = none := by
  cases state with
  | name reversed => exact nameTest_of_le hFits
  | start => exact nameTest_of_le (Nat.zero_le _)
  | number | decimal | hex => rfl

theorem fits_of_nameStep {reversed : List CodePoint} {ch : CodePoint} {state : Reference.State}
    (hMore : Reference.nameStep reversed ch = .more state) : Fits state := by
  unfold Reference.nameStep at hMore
  split at hMore
  · unfold Reference.ofName at hMore
    dsimp only at hMore
    split at hMore <;> cases hMore
  · split at hMore
    · cases hMore
      rename_i hShort
      exact hShort
    · cases hMore

theorem fits_of_extend {next : Nat → Reference.State} {value : Nat} {state : Reference.State}
    (hNumber : ∀ value, Fits (next value)) (hMore : Reference.extend next value = .more state) : Fits state := by
  unfold Reference.extend at hMore
  split at hMore
  · cases hMore
    exact hNumber value
  · cases hMore

theorem ofNumber_ne_more {value : Nat} {state : Reference.State} : Reference.ofNumber value ≠ .more state := by
  unfold Reference.ofNumber
  split <;> exact nofun

theorem fits_of_decimalStep {value : Nat} {ch : CodePoint} {state : Reference.State}
    (hMore : Reference.decimalStep value ch = .more state) : Fits state := by
  unfold Reference.decimalStep at hMore
  split at hMore
  · exact (ofNumber_ne_more hMore).elim
  · split at hMore
    · exact @fits_of_extend .decimal _ _ (fun _ => trivial) hMore
    · cases hMore

theorem fits_of_hexStep {value : Nat} {ch : CodePoint} {state : Reference.State}
    (hMore : Reference.hexStep value ch = .more state) : Fits state := by
  unfold Reference.hexStep at hMore
  split at hMore
  · exact (ofNumber_ne_more hMore).elim
  · split at hMore
    · exact @fits_of_extend .hex _ _ (fun _ => trivial) hMore
    · cases hMore

/-- Every state that a reference comes to fits the buffer. -/
theorem fits_of_step {state state' : Reference.State} {ch : CodePoint}
    (hMore : Reference.step state ch = .more state') : Fits state' := by
  cases state with
  | start =>
    rw [Reference.step] at hMore
    split at hMore
    · cases hMore
      trivial
    · exact fits_of_nameStep hMore
  | number =>
    rw [Reference.step] at hMore
    split at hMore
    · cases hMore
      trivial
    · exact fits_of_decimalStep hMore
  | decimal value => exact fits_of_decimalStep hMore
  | hex value => exact fits_of_hexStep hMore
  | name reversed => exact fits_of_nameStep hMore

def reference : Reading CodePoint :=
  drive (fun state _ ch => Reference.step state ch) (fun state _ ch => referenceTest state ch) .start

/-- No reference overflows its buffer. -/
theorem reference_eq : reference = lift Scan.reference :=
  funext fun _ => @drive_eq _ _ (fun state _ ch => Reference.step state ch) _ (fun state _ => Fits state)
    (fun hFits _ => referenceTest_of_fits hFits) (fun _ _ hMore => fits_of_step hMore) _ _ trivial

def nextResolved : Reading CodePoint := do
  let ch ← lift Scan.next
  if ch = CodePoint.ampersand then reference else pure ch

def resolvedAt (c : Cursor) (offset : Nat) : Guarded Fault (CodePoint × Nat) :=
  match nextResolved { c with offset } with
  | .ok ch c' => do return (ch, ← minus c'.offset offset)
  | .error mishap _ => .error mishap

theorem nextResolved_eq : nextResolved = lift Scan.nextResolved := by
  funext c
  change EStateM.bind _ _ c = ofResult (EStateM.bind _ _ c)
  unfold EStateM.bind lift
  cases Scan.next c with
  | error fault c' => rfl
  | ok ch c' =>
    dsimp only [ofResult]
    split
    · rw [reference_eq]
      rfl
    · rfl

theorem resolvedAt_eq (c : Cursor) (offset : Nat) : resolvedAt c offset = plain (c.resolvedAt offset) := by
  rw [resolvedAt, Cursor.resolvedAt, nextResolved_eq, lift]
  cases hResolved : Scan.nextResolved { c with offset } with
  | error fault c' => rfl
  | ok ch c' =>
    have hForward := (Scan.progressive_nextResolved _ _ _ hResolved).offset_lt
    dsimp only [ofResult]
    rw [minus_of_le (Nat.le_of_lt hForward)]
    rfl

end Guarded
end XmlIndex
