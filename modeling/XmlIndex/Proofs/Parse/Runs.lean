import XmlIndex.Proofs.Lexer.Awaiting

/-! # Parses and the runs of their lexers

A parse gives what the run of its lexer amounts to, once the range is inside the buffer and its encoding has
been detected. A run that ends after few phases can be followed one by one.
-/
namespace XmlIndex
set_option autoImplicit false

section
variable {options : Options} {namespaces : Bool} {doc : ByteArray} {offset length : Nat}

def Lexer.atRange (options : Options) (namespaces : Bool) (detected : Detected) (doc : ByteArray)
    (offset length : Nat) : Lexer :=
  .atStart options namespaces detected doc offset (offset + length)
    { draft := .empty (options.cacheDepth.levels length) }

theorem parseRange_of_detected {detected : Detected} (hRange : offset + length ≤ doc.size)
    (hDetect : detect doc offset (offset + length) namespaces = .ok detected) :
    parseRange options namespaces doc offset length =
      match Lex.run .start (.atRange options namespaces detected doc offset length) with
      | .error fault s => .error (s.failure fault)
      | .ok () s => .ok (s.index doc offset length).1 := by
  unfold parseRange Workspace.parseRange
  rw [if_neg (Nat.not_lt.mpr hRange), hDetect]
  change (match Lex.run .start (.atRange options namespaces detected doc offset length) with
    | .error fault s => (Except.error (s.failure fault), s.workspace)
    | .ok () s => (.ok (s.index doc offset length).1, (s.index doc offset length).2)).1 = _
  cases Lex.run .start (.atRange options namespaces detected doc offset length) <;> rfl

theorem parseRange_of_undetected {cause : EncodingFault} (hRange : offset + length ≤ doc.size)
    (hDetect : detect doc offset (offset + length) namespaces = .error cause) :
    parseRange options namespaces doc offset length = .error ⟨.encoding cause, none⟩ := by
  unfold parseRange Workspace.parseRange
  rw [if_neg (Nat.not_lt.mpr hRange), hDetect]

theorem parseRange_of_outside (hOutside : doc.size < offset + length) :
    parseRange options namespaces doc offset length =
      .error ⟨.structural (.invalidRange offset length doc.size) none, none⟩ := by
  unfold parseRange Workspace.parseRange
  rw [if_pos hOutside]

theorem le_size_of_parseRange {x : Index} (hOk : parseRange options namespaces doc offset length = .ok x) :
    offset + length ≤ doc.size := by
  by_contra hOutside
  rw [parseRange_of_outside (Nat.not_le.mp hOutside)] at hOk
  cases hOk

/-- The lexer that is done with a range that is parsed. -/
theorem exists_run_of_parseRange {x : Index} (hOk : parseRange options namespaces doc offset length = .ok x) :
    ∃ detected s, detect doc offset (offset + length) namespaces = .ok detected ∧
      Lex.run .start (.atRange options namespaces detected doc offset length) = .ok () s ∧
      x = (s.index doc offset length).1 := by
  have hRange := le_size_of_parseRange hOk
  cases hDetect : detect doc offset (offset + length) namespaces with
  | error cause =>
    rw [parseRange_of_undetected hRange hDetect] at hOk
    cases hOk
  | ok detected =>
    rw [parseRange_of_detected hRange hDetect] at hOk
    cases hRun : Lex.run .start (.atRange options namespaces detected doc offset length) with
    | error fault s =>
      rw [hRun] at hOk
      cases hOk
    | ok u s =>
      rw [hRun] at hOk
      exact ⟨detected, s, rfl, hRun, (Except.ok.inj hOk).symm⟩

/-- The index of a range tells which range it is of. -/
theorem range_of_parseRange {x : Index} (hOk : parseRange options namespaces doc offset length = .ok x) :
    x.buffer = doc ∧ x.docOffset = offset ∧ x.docLength = length := by
  obtain ⟨detected, s, -, -, rfl⟩ := exists_run_of_parseRange hOk
  exact ⟨rfl, rfl, rfl⟩

end

namespace Lex

/-- How a run ends, if it takes so many phases at most. -/
def runWithin : Nat → Phase → Lexer → Option (EStateM.Result Fault Lexer Unit)
  | 0, _, _ => none
  | count + 1, phase, s =>
    match step phase s with
    | .ok none s' => some (.ok () s')
    | .ok (some phase') s' => runWithin count phase' s'
    | .error fault s' => some (.error fault s')

theorem run_of_runWithin {count : Nat} {phase : Phase} {s : Lexer} {result : EStateM.Result Fault Lexer Unit}
    (hEnds : runWithin count phase s = some result) : run phase s = result := by
  induction count generalizing phase s with
  | zero => cases hEnds
  | succ count ih =>
    rw [runWithin] at hEnds
    cases hStep : step phase s with
    | error fault s' =>
      rw [hStep] at hEnds
      rw [run_eq, bind_of_error hStep]
      exact Option.some.inj hEnds
    | ok phase? s' =>
      rw [hStep] at hEnds
      rw [run_eq, bind_of_ok hStep]
      cases phase? with
      | none => exact Option.some.inj hEnds
      | some phase' => exact ih hEnds

end Lex

def Lexer.conclude (doc : ByteArray) (offset length : Nat) :
    EStateM.Result Fault Lexer Unit → Except Failure Index
  | .error fault s => .error (s.failure fault)
  | .ok () s => .ok (s.index doc offset length).1

theorem parseRange_of_runWithin {options : Options} {namespaces : Bool} {doc : ByteArray} {offset length count : Nat}
    {detected : Detected} {result : Except Failure Index} (hRange : offset + length ≤ doc.size)
    (hDetect : detect doc offset (offset + length) namespaces = .ok detected)
    (hEnds : (Lex.runWithin count .start (.atRange options namespaces detected doc offset length)).map
      (Lexer.conclude doc offset length) = some result) :
    parseRange options namespaces doc offset length = result := by
  obtain ⟨ended, hRun, hResult⟩ := Option.map_eq_some_iff.mp hEnds
  rw [parseRange_of_detected hRange hDetect, Lex.run_of_runWithin hRun, ← hResult]
  cases ended <;> rfl

end XmlIndex
