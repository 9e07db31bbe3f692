import XmlIndex.Proofs.Translation.Overlay

/-! # Simulations

Two actions simulate each other if from related states they end in the same way, with related
results, related faults and related states. Sequencing, branching and the automata respect this, so
a composite action inherits it from its parts.
-/
namespace XmlIndex
set_option autoImplicit false

namespace Overlay
variable {v : Overlay}

/-- Faults of one cause; a place that they name is the same place. -/
inductive Faults (v : Overlay) : Fault → Fault → Prop where
  | same {fault : Fault} (hPlaceless : fault.offset? = none) : v.Faults fault fault
  | placed {a b : Nat} (cause : SyntaxFault) (hPlace : v.Place a b) :
    v.Faults (.structural cause (some a)) (.structural cause (some b))

section Simulation
variable {lenient : Prop} {σ τ α β α' β' : Type} {R : σ → τ → Prop} {Q : α → β → Prop}
  {P : α' → β' → Prop}

def Outcome (v : Overlay) (lenient : Prop) (R : σ → τ → Prop) (Q : α → β → Prop) :
    EStateM.Result Fault σ α → EStateM.Result Fault τ β → Prop
  | .ok a s, .ok b t => Q a b ∧ R s t
  | .error fault s, .error fault' t => lenient ∨ v.Faults fault fault' ∧ R s t
  | .error _ _, .ok _ _ => lenient
  | .ok _ _, .error _ _ => False

/-- From related states both actions succeed with related results, or both fail alike; if lenient,
the first may also fail alone. -/
def Simulates (v : Overlay) (lenient : Prop) (R : σ → τ → Prop) (Q : α → β → Prop)
    (action : EStateM Fault σ α) (action' : EStateM Fault τ β) : Prop :=
  ∀ s t, R s t → v.Outcome lenient R Q (action s) (action' t)

theorem outcome_of_lenient (hLenient : lenient) {fault : Fault} {s : σ}
    (result : EStateM.Result Fault τ β) : v.Outcome lenient R Q (.error fault s) result := by
  cases result with
  | ok b t => exact hLenient
  | error fault' t => exact .inl hLenient

theorem simulates_pure {a : α} {b : β} (hResult : Q a b) :
    v.Simulates lenient R Q (pure a : EStateM Fault σ α) (pure b) :=
  fun _ _ hState => ⟨hResult, hState⟩

theorem simulates_throw {fault fault' : Fault} (hFaults : v.Faults fault fault') :
    v.Simulates lenient R Q (throw fault : EStateM Fault σ α) (throw fault') :=
  fun _ _ hState => .inr ⟨hFaults, hState⟩

theorem Simulates.bind {action : EStateM Fault σ α} {action' : EStateM Fault τ β}
    {next : α → EStateM Fault σ α'} {next' : β → EStateM Fault τ β'}
    (hAction : v.Simulates lenient R Q action action')
    (hNext : ∀ a b, Q a b → v.Simulates lenient R P (next a) (next' b)) :
    v.Simulates lenient R P (action >>= next) (action' >>= next') := by
  intro s t hState
  have hOutcome := hAction s t hState
  change v.Outcome lenient R P (EStateM.bind action next s) (EStateM.bind action' next' t)
  unfold EStateM.bind
  cases hOuter : action s with
  | ok a s' =>
    cases hInner : action' t with
    | ok b t' =>
      rw [hOuter, hInner] at hOutcome
      exact hNext a b hOutcome.1 s' t' hOutcome.2
    | error fault t' =>
      rw [hOuter, hInner] at hOutcome
      exact hOutcome.elim
  | error fault s' =>
    cases hInner : action' t with
    | ok b t' =>
      rw [hOuter, hInner] at hOutcome
      exact outcome_of_lenient hOutcome _
    | error fault' t' =>
      rw [hOuter, hInner] at hOutcome
      exact hOutcome

/-- If the results are equal, what follows is compared for one result. -/
theorem Simulates.bind_eq {action : EStateM Fault σ α} {action' : EStateM Fault τ α}
    {next : α → EStateM Fault σ α'} {next' : α → EStateM Fault τ β'}
    (hAction : v.Simulates lenient R Eq action action')
    (hNext : ∀ a, v.Simulates lenient R P (next a) (next' a)) :
    v.Simulates lenient R P (action >>= next) (action' >>= next') :=
  hAction.bind fun a _ hEq => hEq ▸ hNext a

theorem Simulates.ite {condition : Prop} [Decidable condition] {yes no : EStateM Fault σ α}
    {yes' no' : EStateM Fault τ β} (hYes : v.Simulates lenient R Q yes yes')
    (hNo : v.Simulates lenient R Q no no') :
    v.Simulates lenient R Q (if condition then yes else no) (if condition then yes' else no') := by
  split
  · exact hYes
  · exact hNo

theorem Simulates.map {action : EStateM Fault σ α} {action' : EStateM Fault τ β} {f : α → α'}
    {g : β → β'} (hAction : v.Simulates lenient R Q action action')
    (hMap : ∀ a b, Q a b → P (f a) (g b)) : v.Simulates lenient R P (f <$> action) (g <$> action') := by
  intro s t hState
  have hOutcome := hAction s t hState
  change v.Outcome lenient R P (EStateM.map f action s) (EStateM.map g action' t)
  unfold EStateM.map
  cases hOuter : action s <;> cases hInner : action' t <;> rw [hOuter, hInner] at hOutcome
  · exact ⟨hMap _ _ hOutcome.1, hOutcome.2⟩
  · exact hOutcome
  · exact hOutcome
  · exact hOutcome

end Simulation

structure Cursors (v : Overlay) (c c' : Cursor) : Prop where
  doc_eq : c.doc = v.outer
  doc_eq' : c'.doc = v.inner
  stop_eq : c.stop = v.delta + v.stop
  stop_eq' : c'.stop = v.stop
  start_eq : c.start = v.delta + c'.start
  encoding_eq : c.encoding = c'.encoding
  unitSize_eq : c'.encoding.unitSize = v.unit
  offset : v.Place c.offset c'.offset
  last : v.Place c.last c'.last

abbrev Reads {α β : Type} (v : Overlay) (Q : α → β → Prop) (action : Scan α) (action' : Scan β) : Prop :=
  v.Simulates False v.Cursors Q action action'

section Cursors
variable {c c' : Cursor}

/-- Over one and the same document they are one and the same cursor. -/
theorem Cursors.eq (hCursors : v.Cursors c c') (hDelta : v.delta = 0) (hSame : v.outer = v.inner) : c = c' := by
  obtain ⟨hDoc, hDoc', hStop, hStop', hStart, hEncoding, -, ⟨hOffset, -, -⟩, ⟨hLast, -, -⟩⟩ := hCursors
  rw [hDelta, Nat.zero_add] at hStop hStart hOffset hLast
  cases c
  cases c'
  simp_all only

theorem Cursors.charAt_eq (hCursors : v.Cursors c c') (i : Nat) :
    c.charAt (v.delta + i) = c'.charAt i := by
  unfold Cursor.charAt
  rw [hCursors.doc_eq, hCursors.doc_eq', hCursors.stop_eq, hCursors.stop_eq', hCursors.encoding_eq,
    v.decodeAt_eq]

theorem Cursors.charAt_offset (hCursors : v.Cursors c c') : c.charAt c.offset = c'.charAt c'.offset := by
  rw [hCursors.offset.eq, hCursors.charAt_eq]

theorem Cursors.unit_dvd_of_charAt (hCursors : v.Cursors c c') {i ch width : Nat}
    (hRead : c'.charAt i = .ok (ch, width)) : v.unit ∣ width := by
  unfold Cursor.charAt at hRead
  split at hRead
  · rename_i hDecode
    cases hRead
    rw [← hCursors.unitSize_eq, Encoding.eq_width_of_decodeAt hDecode]
    exact Encoding.unitSize_dvd_width _ _
  · cases hRead

/-- Both cursors move on over the character at their place. -/
theorem Cursors.past (hCursors : v.Cursors c c') {ch width : Nat}
    (hRead : c'.charAt c'.offset = .ok (ch, width)) :
    v.Cursors { c with offset := c.offset + width, last := c.offset }
      { c' with offset := c'.offset + width, last := c'.offset } :=
  { hCursors with
    offset := hCursors.offset.add (hCursors.unit_dvd_of_charAt hRead)
      (hCursors.stop_eq' ▸ (Scan.charAt_width hRead).2)
    last := hCursors.offset }

theorem Cursors.seek (hCursors : v.Cursors c c') {a b : Nat} (hPlace : v.Place a b) :
    v.Cursors { c with offset := a } { c' with offset := b } :=
  { hCursors with offset := hPlace }

theorem Cursors.spellsFrom_eq (hCursors : v.Cursors c c') (expected : List CodePoint)
    (stop offset : Nat) : c.spellsFrom (v.delta + stop) (v.delta + offset) expected =
      c'.spellsFrom stop offset expected := by
  induction expected generalizing offset with
  | nil =>
    simp only [Cursor.spellsFrom, beq_eq_decide, Nat.add_left_cancel_iff]
  | cons ch rest ih =>
    simp only [Cursor.spellsFrom, Nat.add_le_add_iff_left, hCursors.charAt_eq, Nat.add_assoc, ih]

theorem Cursors.spells_eq (hCursors : v.Cursors c c') (offset length : Nat)
    (expected : List CodePoint) :
    c.spells (v.delta + offset) length expected = c'.spells offset length expected := by
  unfold Cursor.spells
  rw [Nat.add_assoc, hCursors.spellsFrom_eq]

theorem Cursors.position_eq (hCursors : v.Cursors c c') (offset : Nat) :
    c.position (v.delta + offset) = c'.position offset := by
  unfold Cursor.position
  rw [hCursors.doc_eq, hCursors.doc_eq', hCursors.stop_eq, hCursors.stop_eq', hCursors.start_eq,
    hCursors.encoding_eq, Nat.add_min_add_left, v.ofOffset_eq _ (Nat.min_le_right _ _)]

end Cursors
end Overlay
end XmlIndex
