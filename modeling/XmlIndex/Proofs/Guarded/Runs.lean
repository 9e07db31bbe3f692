import XmlIndex.Proofs.Guarded.Positions
import XmlIndex.Proofs.Guarded.Steps
import XmlIndex.Proofs.Parse.Persistence

/-! # Runs of the guarded lexer

Every step of a run leads further on in the range, so there are no more steps than bytes but one. From the start of
a document on no test fails, neither of the lexer nor of what decodes the range and counts its lines.
-/
namespace XmlIndex
set_option autoImplicit false

/-- What a run makes of a step that fails: after the root the document may end. -/
def Stage.failed (stage : Stage) (fault : Fault) (s : Lexer) : EStateM.Result Fault Lexer Unit :=
  match fault, stage with
  | .endOfDocument, .epilog => .ok () s
  | fault, _ => .error fault s

namespace Guarded

def Continues (least : Nat) (c : Cursor) (stage : Stage) (plain : EStateM.Result Fault Lexer Unit) :
    EStateM.Result (Mishap Fault) Lexer Stage → Prop
  | .ok next s => plain = (next.rest >>= Lex.run) s ∧ next.Fits s ∧ Safe least c none s
  | .error (.fault fault) s => plain = stage.failed fault s ∧ c.SameRange s.cursor
  | .error (.hazard _) _ => False

namespace Lexing
variable {c : Cursor} {known : Option Encoding} {least : Nat} {s s' : Lexer} {stage stage' : Stage} {fault : Fault}

theorem failed_of_ne_epilog (hStage : stage ≠ .epilog) : stage.failed fault s = .error fault s := by
  unfold Stage.failed
  split
  · exact absurd rfl hStage
  · rfl

theorem failed_of_ne_endOfDocument (hFault : fault ≠ .endOfDocument) : stage.failed fault s = .error fault s := by
  unfold Stage.failed
  split
  · exact absurd rfl hFault
  · rfl

theorem continues_of_leads {plain : Lex Phase} {result : EStateM.Result (Mishap Fault) Lexer Stage}
    (hLeads : Leads least c result (plain s))
    (hFailed : ∀ fault s', result = .error (.fault fault) s' → stage.failed fault s' = .error fault s') :
    Continues least c stage ((plain >>= Lex.run) s) result := by
  cases result with
  | ok next s' =>
    obtain ⟨hPlain, hNext⟩ := hLeads
    exact ⟨bind_congr_at hPlain, hNext⟩
  | error mishap s' =>
    cases mishap with
    | fault fault =>
      obtain ⟨hPlain, hRange⟩ := hLeads
      exact ⟨(bind_eq_of_error hPlain).trans (hFailed fault s' rfl).symm, hRange⟩
    | hazard hazard => exact hLeads

/-- Where a phase begins, all of it is left to do. -/
theorem rest_bind_run (hStage : stage ≠ .epilog) : (stage.rest >>= Lex.run) s = (stage.action >>= Lex.run) s := by
  cases stage with
  | start => exact @Lex.run_of_step s .start _ rfl
  | markup => exact @Lex.run_of_step s .markup _ rfl
  | attributeName place first => exact @Lex.run_of_step s (.attributes place first) _ rfl
  | epilog => exact absurd rfl hStage
  | _ => rfl

theorem epilog_bind_finish_of_error {c' : Cursor} (hError : Scan.nextAfterSpace s.cursor = .error fault c') :
    (Lex.epilog >>= Lex.finish) s = Stage.epilog.failed fault { s with cursor := c' } := by
  by_cases hFault : fault = .endOfDocument
  · subst hFault
    have hRead : Lex.read Scan.nextAfterSpace? s = .ok none { s with cursor := c' } := by
      rw [Lex.read, Scan.nextAfterSpace?, hError]
    have hEpilog : Lex.epilog s = .ok none { s with cursor := c' } := bind_eq_of_ok hRead
    exact bind_eq_of_ok hEpilog
  · have hRead : Lex.read Scan.nextAfterSpace? s = .error fault { s with cursor := c' } := by
      rw [Lex.read, Scan.nextAfterSpace?, hError]
      split <;> simp_all
    rw [failed_of_ne_endOfDocument hFault]
    exact bind_eq_of_error (bind_eq_of_error hRead)

theorem epilog_continues (hSafe : Safe least c none s) :
    Continues (least + 1) c .epilog ((Lex.epilog >>= Lex.finish) s) (step .epilog s) := by
  have hSettled := settles_nextAfterSpace _ hSafe
  cases hNext : Scan.nextAfterSpace s.cursor with
  | ok ch c₁ =>
    have hRead : Lex.read Scan.nextAfterSpace s = .ok ch { s with cursor := c₁ } := by rw [Lex.read, hNext]
    have hStep : step .epilog s = lastMarkup ch { s with cursor := c₁ } := bind_eq_of_ok (by rw [lift, hRead]; rfl)
    have hPlain : (Lex.epilog >>= Lex.finish) s = (lastMarkupRest ch >>= Lex.run) { s with cursor := c₁ } := by
      rw [bind_congr_at (lexEpilog_of_ok hNext), bind_map_left]
      rfl
    rw [hRead] at hSettled
    rw [hStep, hPlain]
    exact continues_of_leads (lastMarkup_leads hSettled ch) fun _ _ hError =>
      failed_of_ne_endOfDocument (ne_endOfDocument_of_lastMarkup hError)
  | error fault c₁ =>
    have hRead : Lex.read Scan.nextAfterSpace s = .error fault { s with cursor := c₁ } := by rw [Lex.read, hNext]
    have hStep : step .epilog s = .error (.fault fault) { s with cursor := c₁ } :=
      bind_eq_of_error (by rw [lift, hRead]; rfl)
    rw [hRead] at hSettled
    rw [hStep]
    exact ⟨epilog_bind_finish_of_error hNext, hSettled⟩

/-- A step goes on with the run, further on in the range. -/
theorem step_continues (hSafe : Safe s.cursor.offset c none s) (hFits : stage.Fits s) :
    Continues (s.cursor.offset + 1) c stage ((stage.rest >>= Lex.run) s) (step stage s) := by
  by_cases hStage : stage = .epilog
  · subst hStage
    have hPlain : (Stage.epilog.rest >>= Lex.run) s = (Lex.epilog >>= Lex.finish) s := Lex.run_eq
    rw [hPlain]
    exact epilog_continues hSafe
  · rw [rest_bind_run hStage]
    exact continues_of_leads (step_leads hSafe hFits hStage) fun _ _ _ => failed_of_ne_epilog hStage

theorem run_of_ok {count : Nat} (hStep : step stage s = .ok stage' s') :
    run (count + 1) stage s = run count stage' s' := by
  rw [run, hStep]

theorem run_of_fault {count : Nat} (hStep : step stage s = .error (.fault fault) s') :
    run (count + 1) stage s = ofResult (stage.failed fault s') := by
  rw [run, hStep]
  cases fault <;> cases stage <;> rfl

/-- A run of as many steps as bytes are left, and one more, does what the lexer does without tests. -/
theorem run_eq_ofResult {count : Nat} (hSafe : Safe s.cursor.offset c none s) (hFits : stage.Fits s)
    (hCount : c.stop - s.cursor.offset < count) : run count stage s = ofResult ((stage.rest >>= Lex.run) s) := by
  induction count generalizing stage s with
  | zero => cases hCount
  | succ count ih =>
    have hContinues := step_continues hSafe hFits
    cases hStep : step stage s with
    | ok next s' =>
      rw [hStep] at hContinues
      obtain ⟨hPlain, hNext, hSafe'⟩ := hContinues
      have hLeast := hSafe'.least_le
      have hStop := hSafe'.offset_le
      rw [run_of_ok hStep, hPlain]
      exact ih hSafe'.here hNext (by omega)
    | error mishap s' =>
      rw [hStep] at hContinues
      cases mishap with
      | fault fault => rw [run_of_fault hStep, hContinues.1]
      | hazard hazard => exact hContinues.elim

/-- A run that fails has not left the range. -/
theorem sameRange_of_run {count : Nat} (hSafe : Safe s.cursor.offset c none s) (hFits : stage.Fits s)
    (hError : run count stage s = .error (.fault fault) s') : c.SameRange s'.cursor := by
  induction count generalizing stage s with
  | zero => cases hError
  | succ count ih =>
    have hContinues := step_continues hSafe hFits
    cases hStep : step stage s with
    | ok next s₁ =>
      rw [hStep] at hContinues
      rw [run_of_ok hStep] at hError
      exact ih hContinues.2.2.here hContinues.2.1 hError
    | error mishap s₁ =>
      rw [hStep] at hContinues
      cases mishap with
      | fault fault' =>
        rw [run_of_fault hStep] at hError
        unfold Stage.failed at hError
        split at hError <;> cases hError
        exact hContinues.2
      | hazard hazard => exact hContinues.elim

/-- The stages that a run from `first` comes to, with the lexer there. -/
inductive Reachable (first : Lexer) : Stage → Lexer → Prop
  | start : Reachable first .start first
  | step {stage stage' : Stage} {s s' : Lexer} (hReachable : Reachable first stage s)
      (hStep : step stage s = .ok stage' s') : Reachable first stage' s'

theorem Reachable.safe {first : Lexer} (hFirst : Safe first.cursor.offset c none first)
    (hReachable : Reachable first stage s) : Safe s.cursor.offset c none s ∧ stage.Fits s := by
  induction hReachable with
  | start => exact ⟨hFirst, trivial⟩
  | step _ hStep ih =>
    have hContinues := step_continues ih.1 ih.2
    rw [hStep] at hContinues
    exact ⟨hContinues.2.2.here, hContinues.2.1⟩

/-- A run goes on with the rest of the stage that it has come to. -/
theorem Reachable.run_eq {first : Lexer} (hFirst : Safe first.cursor.offset c none first)
    (hReachable : Reachable first stage s) : Lex.run .start first = (stage.rest >>= Lex.run) s := by
  induction hReachable with
  | start => rfl
  | step hEarlier hStep ih =>
    obtain ⟨hSafe, hFits⟩ := hEarlier.safe hFirst
    have hContinues := step_continues hSafe hFits
    rw [hStep] at hContinues
    exact ih.trans hContinues.1

end Lexing

section
variable {options : Options} {namespaces : Bool} {doc : ByteArray} {offset length : Nat} {w : Workspace}
  {detected : Detected}

theorem failure_eq {ε : Type} {c : Cursor} {s : Lexer} (hStart : c.start ≤ c.stop) (hStop : c.stop ≤ c.doc.size)
    (hRange : c.SameRange s.cursor) (fault : Fault) : (failure s fault : Guarded ε Failure) = .ok (s.failure fault) := by
  have hPosition (place : Nat) : (position s.cursor place : Guarded ε Position) = .ok (s.cursor.position place) := by
    refine position_eq ?_ ?_ place
    · rw [hRange.start_eq, hRange.stop_eq]
      exact hStart
    · rw [hRange.stop_eq, hRange.doc_eq]
      exact hStop
  cases fault with
  | endOfDocument => rfl
  | _ =>
    rw [failure, hPosition]
    · rfl
    · exact nofun

/-- The lexer is safe where a document starts. -/
theorem safe_atStart (hRange : offset + length ≤ doc.size)
    (hDetected : detect doc offset (offset + length) namespaces = .ok detected) :
    Safe (offset + detected.mark.size)
      (.atStart doc (offset + detected.mark.size) (offset + length) detected.encoding) none
      (.atStart options namespaces detected doc offset (offset + length) w) := by
  obtain ⟨-, hHead, -⟩ := detect_eq_ok_iff.mp hDetected
  have hMark := (Detected.mark_of_ofHead hHead).1
  have hHeadBytes := length_headBytes doc offset (offset + length)
  exact
    { range := ⟨rfl, rfl, rfl⟩
      encoding_eq := nofun
      start_le := by
        change offset + detected.mark.size ≤ offset + length
        omega
      stop_le := hRange
      least_le := Nat.le_refl _
      offset_le := by
        change offset + detected.mark.size ≤ offset + length
        omega
      opened := Nat.zero_le _
      openTags := nofun
      attributes := nofun
      scopes := @Namespace.Scopes.within_reset _ w.scopes }

theorem run_atStart (hRange : offset + length ≤ doc.size)
    (hDetected : detect doc offset (offset + length) namespaces = .ok detected) :
    Lexing.run (length + 1) .start (.atStart options namespaces detected doc offset (offset + length) w) =
      ofResult (Lex.run .start (.atStart options namespaces detected doc offset (offset + length) w)) := by
  refine Lexing.run_eq_ofResult (safe_atStart hRange hDetected) trivial ?_
  change offset + length - (offset + detected.mark.size) < length + 1
  omega

/-- A parse meets no hazard, and takes no more steps than the range has bytes and one. -/
theorem parseRange_eq {ε : Type} : (parseRange options namespaces doc offset length w : Guarded ε _) =
    .ok (Workspace.parseRange options namespaces doc offset length w) := by
  unfold parseRange Workspace.parseRange
  by_cases hRange : doc.size < offset + length
  · rw [if_pos hRange, if_pos hRange]
  · rw [if_neg hRange, if_neg hRange]
    cases hDetected : detect doc offset (offset + length) namespaces with
    | error cause => rfl
    | ok detected =>
      have hSafe := @safe_atStart options _ _ _ _ w _ (Nat.not_lt.mp hRange) hDetected
      have hRun := @run_atStart options _ _ _ _ w _ (Nat.not_lt.mp hRange) hDetected
      dsimp only
      rw [hRun]
      cases hPlain : Lex.run .start (.atStart options namespaces detected doc offset (offset + length) w) with
      | ok u s => rfl
      | error fault s =>
        rw [hPlain] at hRun
        have hSame := Lexing.sameRange_of_run hSafe (show Stage.start.Fits _ from trivial) hRun
        change (failure s fault >>= fun failure => pure (Except.error failure, s.workspace)) = _
        rw [failure_eq hSafe.start_le hSafe.stop_le hSame]
        rfl

/-- From the start of a document of any encoding, under any options, the lexer moves on with every step and stays in
its range, so that it is done after no more steps than the range has bytes and one. No step meets a hazard, nor does
what reads a character or a reference, or tells a position, anywhere in the range. -/
theorem lexer_progresses_without_hazard (hRange : offset + length ≤ doc.size)
    (hDetected : detect doc offset (offset + length) namespaces = .ok detected) :
    Lexing.run (length + 1) .start (.atStart options namespaces detected doc offset (offset + length) w) =
        ofResult (Lex.run .start (.atStart options namespaces detected doc offset (offset + length) w)) ∧
      (parseRange options namespaces doc offset length w : Guarded Fault _) =
        .ok (Workspace.parseRange options namespaces doc offset length w) ∧
      ∀ stage s, Lexing.Reachable (.atStart options namespaces detected doc offset (offset + length) w) stage s →
        (match Lexing.step stage s with
          | .ok _ s' => s.cursor.offset < s'.cursor.offset ∧ s'.cursor.offset ≤ offset + length
          | .error (.fault fault) s' => (failure s' fault : Guarded Fault Failure) = .ok (s'.failure fault)
          | .error (.hazard _) _ => False) ∧
        ∀ c, s.cursor.SameRange c → ∀ place,
          charAt c place = plain (c.charAt place) ∧ resolvedAt c place = plain (c.resolvedAt place) ∧
            (position c place : Guarded Fault Position) = .ok (c.position place) := by
  have hFirst := @safe_atStart options _ _ _ _ w _ hRange hDetected
  refine ⟨run_atStart hRange hDetected, parseRange_eq, fun stage s hReachable => ?_⟩
  obtain ⟨hSafe, hFits⟩ := hReachable.safe hFirst
  refine ⟨?_, fun c hSame place => ?_⟩
  · have hContinues := Lexing.step_continues hSafe hFits
    cases hStep : Lexing.step stage s with
    | ok next s' =>
      rw [hStep] at hContinues
      exact ⟨hContinues.2.2.least_le, hContinues.2.2.offset_le⟩
    | error mishap s' =>
      rw [hStep] at hContinues
      cases mishap with
      | fault fault => exact failure_eq hSafe.start_le hSafe.stop_le hContinues.2 fault
      | hazard hazard => exact hContinues
  · have hWhole := hSafe.range.trans hSame
    have hStop : c.stop ≤ c.doc.size := by
      rw [hWhole.stop_eq, hWhole.doc_eq]
      exact hSafe.stop_le
    have hStart : c.start ≤ c.stop := by
      rw [hWhole.start_eq, hWhole.stop_eq]
      exact hSafe.start_le
    exact ⟨charAt_eq hStop place, resolvedAt_eq c place, position_eq hStart hStop place⟩

end

/-- The run over a range of 16-bit units that begins with a mark. -/
theorem lexer_progresses_without_hazard_shiftedTag :
    1 + 10 ≤ shiftedTag.size ∧ detect shiftedTag 1 (1 + 10) false = .ok ⟨.utf16 .little, .utf16⟩ ∧
      ∃ w, (parseRange {} false shiftedTag 1 10 { draft := .empty (({} : Options).cacheDepth.levels 10) } :
        Guarded Fault _) = .ok (.ok shiftedIndex, w) := by
  have hRange : 1 + 10 ≤ shiftedTag.size := by decide
  have hDetected : detect shiftedTag 1 (1 + 10) false = .ok ⟨.utf16 .little, .utf16⟩ := rfl
  obtain ⟨-, hParse, -⟩ := @lexer_progresses_without_hazard {} _ _ _ _ { draft := .empty _ } _ hRange hDetected
  exact ⟨hRange, hDetected, _, hParse.trans (congrArg Except.ok (Prod.ext parseRange_shiftedTag rfl))⟩

end Guarded
end XmlIndex
