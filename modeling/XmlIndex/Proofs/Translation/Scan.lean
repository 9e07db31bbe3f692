import XmlIndex.Proofs.Translation.Simulation

/-! # Reading the same bytes

Every reading action simulates itself under an overlay. The faults of an automaton name no place,
so a driver fails alike wherever its range lies.
-/
namespace XmlIndex
set_option autoImplicit false

/-- No fault of the automaton names a place. -/
def Verdict.Placeless {σ α : Type} (verdict : Verdict σ α) : Prop :=
  ∀ fault, verdict = .reject fault → fault.offset? = none

section Placeless
variable {σ α : Type}

theorem placeless_more (state : σ) : (Verdict.more state : Verdict σ α).Placeless :=
  fun _ h => nomatch h

theorem placeless_done (a : α) : (Verdict.done a : Verdict σ α).Placeless :=
  fun _ h => nomatch h

theorem placeless_reject {fault : Fault} (hFault : fault.offset? = none) :
    (Verdict.reject fault : Verdict σ α).Placeless := by
  intro _ hReject
  cases hReject
  exact hFault

theorem Verdict.Placeless.ite {condition : Prop} [Decidable condition] {yes no : Verdict σ α}
    (hYes : yes.Placeless) (hNo : no.Placeless) :
    (if condition then yes else no).Placeless := by
  split
  · exact hYes
  · exact hNo

theorem Reference.placeless_ofNumber (value : Nat) : (Reference.ofNumber value).Placeless :=
  .ite (placeless_done _) (placeless_reject rfl)

theorem Reference.placeless_extend (state : Nat → Reference.State) (value : Nat) :
    (Reference.extend state value).Placeless :=
  .ite (placeless_more _) (placeless_reject rfl)

theorem Reference.placeless_nameStep (reversed : List CodePoint) (ch : CodePoint) :
    (Reference.nameStep reversed ch).Placeless := by
  refine .ite ?_ (.ite (placeless_more _) (placeless_reject rfl))
  unfold Reference.ofName
  simp only
  split
  · exact placeless_done _
  · exact placeless_reject rfl

theorem Reference.placeless_decimalStep (value : Nat) (ch : CodePoint) :
    (Reference.decimalStep value ch).Placeless := by
  refine .ite (Reference.placeless_ofNumber _) ?_
  split
  · exact Reference.placeless_extend _ _
  · exact placeless_reject rfl

theorem Reference.placeless_hexStep (value : Nat) (ch : CodePoint) :
    (Reference.hexStep value ch).Placeless := by
  refine .ite (Reference.placeless_ofNumber _) ?_
  split
  · exact Reference.placeless_extend _ _
  · exact placeless_reject rfl

theorem Reference.placeless_step (state : Reference.State) (ch : CodePoint) :
    (Reference.step state ch).Placeless := by
  cases state with
  | start => exact .ite (placeless_more _) (Reference.placeless_nameStep _ _)
  | number => exact .ite (placeless_more _) (Reference.placeless_decimalStep _ _)
  | decimal value => exact Reference.placeless_decimalStep _ _
  | hex value => exact Reference.placeless_hexStep _ _
  | name reversed => exact Reference.placeless_nameStep _ _

theorem Text.placeless_plainStep (ch : CodePoint) : (Text.plainStep ch).Placeless :=
  .ite (placeless_done _)
    (.ite (placeless_more _)
      (.ite (placeless_more _) (.ite (placeless_more _) (placeless_reject rfl))))

theorem Text.placeless_step (state : Text.State) (ch : CodePoint) :
    (Text.step state ch).Placeless := by
  cases state with
  | plain => exact Text.placeless_plainStep ch
  | bracket => exact .ite (placeless_more _) (Text.placeless_plainStep ch)
  | brackets =>
    exact .ite (placeless_more _) (.ite (placeless_reject rfl) (Text.placeless_plainStep ch))
  | reference state =>
    simp only [Text.step]
    cases hStep : Reference.step state ch with
    | more state' => exact placeless_more _
    | done a => exact placeless_more _
    | reject fault => exact placeless_reject (Reference.placeless_step state ch fault hStep)

theorem AttributeValue.placeless_step (quote : CodePoint) (state : AttributeValue.State)
    (ch : CodePoint) : (AttributeValue.step quote state ch).Placeless := by
  cases state with
  | body =>
    exact .ite (placeless_done _)
      (.ite (placeless_reject rfl) (.ite (placeless_more _) (placeless_more _)))
  | reference state =>
    simp only [AttributeValue.step]
    cases hStep : Reference.step state ch with
    | more state' => exact placeless_more _
    | done a => exact placeless_more _
    | reject fault => exact placeless_reject (Reference.placeless_step state ch fault hStep)

theorem Comment.placeless_step (state : Comment.State) (ch : CodePoint) :
    (Comment.step state ch).Placeless := by
  cases state with
  | hyphens => exact .ite (placeless_done _) (placeless_reject rfl)
  | body =>
    exact .ite (placeless_reject rfl) (.ite (placeless_more _) (placeless_more _))
  | hyphen =>
    exact .ite (placeless_reject rfl) (.ite (placeless_more _) (placeless_more _))

theorem CharacterSection.placeless_step (state : CharacterSection.State) (ch : CodePoint) :
    (CharacterSection.step state ch).Placeless :=
  .ite (placeless_reject rfl)
    (.ite (placeless_more _) (.ite (placeless_done _) (placeless_more _)))

theorem Instruction.placeless_step (question : Bool) (ch : CodePoint) :
    (Instruction.step question ch).Placeless :=
  .ite (placeless_reject rfl) (.ite (placeless_done _) (placeless_more _))

theorem DocumentType.placeless_step (opened : Nat) (ch : CodePoint) :
    (DocumentType.step opened ch).Placeless :=
  .ite (placeless_reject rfl)
    (.ite (.ite (placeless_done _) (placeless_more _))
      (.ite (placeless_more _) (placeless_more _)))

theorem EncodingLabel.placeless_step (quote : CodePoint) (reversed : List Char) (ch : CodePoint) :
    (EncodingLabel.step quote reversed ch).Placeless :=
  .ite (placeless_done _) (.ite (placeless_more _) (placeless_reject rfl))

end Placeless

namespace Overlay
variable {v : Overlay} {α β σ τ : Type}

def Verdicts (v : Overlay) (S : σ → τ → Prop) (Q : α → β → Prop) : Verdict σ α → Verdict τ β → Prop
  | .more state, .more state' => S state state'
  | .done a, .done b => Q a b
  | .reject fault, .reject fault' => v.Faults fault fault'
  | _, _ => False

def Machines (v : Overlay) (S : σ → τ → Prop) (Q : α → β → Prop) (machine : Automaton σ α)
    (machine' : Automaton τ β) : Prop :=
  ∀ state state' a b ch, S state state' → v.Place a b →
    v.Verdicts S Q (machine state a ch) (machine' state' b ch)

theorem machines_of_placeless {step : σ → CodePoint → Verdict σ α}
    (hStep : ∀ state ch, (step state ch).Placeless) :
    v.Machines Eq Eq (fun state _ ch => step state ch) (fun state _ ch => step state ch) := by
  rintro state _ a b ch rfl -
  change v.Verdicts Eq Eq (step state ch) (step state ch)
  cases hVerdict : step state ch with
  | more => exact rfl
  | done => exact rfl
  | reject fault => exact .same (hStep state ch fault hVerdict)

theorem placeless_of_charAt {c : Cursor} {offset : Nat} {fault : Fault}
    (hRead : c.charAt offset = .error fault) : fault.offset? = none := by
  unfold Cursor.charAt at hRead
  split at hRead <;> cases hRead
  unfold Fault.ofDecode
  split <;> rfl

theorem reads_next : v.Reads Eq Scan.next Scan.next := by
  intro c c' hCursors
  unfold Scan.next
  rw [hCursors.charAt_offset]
  cases hRead : c'.charAt c'.offset with
  | error fault => exact .inr ⟨.same (placeless_of_charAt hRead), hCursors⟩
  | ok found => exact ⟨rfl, hCursors.past hRead⟩

theorem next_of_ok {c c' c₁ : Cursor} {ch : CodePoint} (hNext : Scan.next c = .ok ch c₁)
    (hCursors : v.Cursors c c') : ∃ c₁', Scan.next c' = .ok ch c₁' ∧ v.Cursors c₁ c₁' := by
  have hBoth := reads_next c c' hCursors
  rw [hNext] at hBoth
  cases hNext' : Scan.next c' <;> rw [hNext'] at hBoth
  · obtain ⟨rfl, hCursors⟩ := hBoth
    exact ⟨_, rfl, hCursors⟩
  · exact hBoth.elim

variable {S : σ → τ → Prop} {Q : α → β → Prop} {machine : Automaton σ α} {machine' : Automaton τ β}
  {state : σ} {state' : τ}

theorem drive_of_error {c c' : Cursor} {fault : Fault} (hNext : Scan.next c = .error fault c') :
    Scan.drive machine state c = .error fault c' := by
  rw [Scan.drive]
  split <;> rename_i hOther <;> rw [hNext] at hOther <;> cases hOther
  rfl

theorem drive_of_ok {c c' : Cursor} {ch : CodePoint} (hNext : Scan.next c = .ok ch c') :
    Scan.drive machine state c =
      match machine state c'.last ch with
      | .more state' => Scan.drive machine state' c'
      | .done a => .ok a c'
      | .reject fault => .error fault c' := by
  rw [Scan.drive]
  split <;> rename_i hOther <;> rw [hNext] at hOther <;> cases hOther
  cases machine state c'.last ch <;> rfl

/-- Induction along the outer run; the inner one makes the same moves. -/
theorem reads_drive (hMachines : v.Machines S Q machine machine') (hState : S state state') :
    v.Reads Q (Scan.drive machine state) (Scan.drive machine' state') := by
  intro c c' hCursors
  have hBoth := reads_next c c' hCursors
  fun_induction Scan.drive machine state c generalizing state' c' with
  | case1 state c fault c₁ hNext =>
    rw [hNext] at hBoth
    cases hNext' : Scan.next c' with
    | error fault' c₁' =>
      rw [hNext'] at hBoth
      rw [drive_of_error hNext']
      exact hBoth
    | ok ch c₁' =>
      rw [hNext'] at hBoth
      exact hBoth.elim
  | case2 state c ch c₁ hNext state₁ hMore ih =>
    obtain ⟨c₁', hNext', hCursors⟩ := next_of_ok hNext hCursors
    have hVerdict := hMachines state state' _ _ ch hState hCursors.last
    rw [drive_of_ok hNext']
    rw [hMore] at hVerdict
    cases hMore' : machine' state' c₁'.last ch <;> rw [hMore'] at hVerdict
    · exact ih hVerdict c₁' hCursors (reads_next _ _ hCursors)
    · exact hVerdict.elim
    · exact hVerdict.elim
  | case3 state c ch c₁ hNext result hDone =>
    obtain ⟨c₁', hNext', hCursors⟩ := next_of_ok hNext hCursors
    have hVerdict := hMachines state state' _ _ ch hState hCursors.last
    rw [drive_of_ok hNext']
    rw [hDone] at hVerdict
    cases hDone' : machine' state' c₁'.last ch <;> rw [hDone'] at hVerdict
    · exact hVerdict.elim
    · exact ⟨hVerdict, hCursors⟩
    · exact hVerdict.elim
  | case4 state c ch c₁ hNext fault hReject =>
    obtain ⟨c₁', hNext', hCursors⟩ := next_of_ok hNext hCursors
    have hVerdict := hMachines state state' _ _ ch hState hCursors.last
    rw [drive_of_ok hNext']
    rw [hReject] at hVerdict
    cases hReject' : machine' state' c₁'.last ch <;> rw [hReject'] at hVerdict
    · exact hVerdict.elim
    · exact hVerdict.elim
    · exact .inr ⟨hVerdict, hCursors⟩

theorem reads_offset : v.Reads v.Place Scan.offset Scan.offset :=
  fun _ _ hCursors => ⟨hCursors.offset, hCursors⟩

theorem reads_last : v.Reads v.Place Scan.last Scan.last :=
  fun _ _ hCursors => ⟨hCursors.last, hCursors⟩

theorem reads_encoding :
    v.Reads (fun e e' => e = e' ∧ e.unitSize = v.unit) Scan.encoding Scan.encoding :=
  fun _ _ hCursors => ⟨⟨hCursors.encoding_eq, hCursors.encoding_eq ▸ hCursors.unitSize_eq⟩, hCursors⟩

theorem reads_feed (hMachines : v.Machines S Q machine machine') (hState : S state state')
    (ch : CodePoint) : v.Reads Q (Scan.feed machine state ch) (Scan.feed machine' state' ch) := by
  refine reads_last.bind fun a b hPlace => ?_
  have hVerdict := hMachines state state' a b ch hState hPlace
  cases hOuter : machine state a ch <;> cases hInner : machine' state' b ch <;>
    rw [hOuter, hInner] at hVerdict
  case more.more => exact reads_drive hMachines hVerdict
  case done.done => exact simulates_pure hVerdict
  case reject.reject => exact simulates_throw hVerdict
  all_goals exact hVerdict.elim

theorem reads_of_placeless {step : σ → CodePoint → Verdict σ α}
    (hStep : ∀ state ch, (step state ch).Placeless) (state : σ) :
    v.Reads Eq (Scan.drive (fun state _ ch => step state ch) state)
      (Scan.drive (fun state _ ch => step state ch) state) :=
  reads_drive (machines_of_placeless hStep) rfl

theorem reads_nextAfter (skipped : CodePoint → Bool) :
    v.Reads Eq (Scan.nextAfter skipped) (Scan.nextAfter skipped) :=
  reads_of_placeless (fun _ _ => .ite (placeless_more _) (placeless_done _)) ()

theorem reads_nextAfterSpace : v.Reads Eq Scan.nextAfterSpace Scan.nextAfterSpace :=
  reads_nextAfter _

theorem reads_skipSpace (ch : CodePoint) : v.Reads Eq (Scan.skipSpace ch) (Scan.skipSpace ch) :=
  .ite reads_nextAfterSpace (simulates_pure rfl)

theorem reads_skip (expected : CodePoint) : v.Reads Eq (Scan.skip expected) (Scan.skip expected) := by
  intro c c' hCursors
  unfold Scan.skip
  rw [hCursors.charAt_offset]
  cases hRead : c'.charAt c'.offset with
  | error fault => exact .inr ⟨.same (placeless_of_charAt hRead), hCursors⟩
  | ok found =>
    simp only
    split
    · exact ⟨rfl, hCursors.past hRead⟩
    · exact ⟨rfl, hCursors⟩

theorem reads_skipAll (expected : List CodePoint) :
    v.Reads Eq (Scan.skipAll expected) (Scan.skipAll expected) := by
  induction expected with
  | nil => exact simulates_pure rfl
  | cons ch rest ih => exact (reads_skip ch).bind_eq fun _ => .ite ih (simulates_pure rfl)

theorem reads_skipAny (choices : List CodePoint) :
    v.Reads Eq (Scan.skipAny choices) (Scan.skipAny choices) := by
  induction choices with
  | nil => exact simulates_pure rfl
  | cons ch rest ih => exact (reads_skip ch).bind_eq fun _ => .ite (simulates_pure rfl) ih

theorem reads_skipEach (sets : List (List CodePoint)) :
    v.Reads Eq (Scan.skipEach sets) (Scan.skipEach sets) := by
  induction sets with
  | nil => exact simulates_pure rfl
  | cons choices rest ih => exact (reads_skipAny choices).bind_eq fun _ => .ite ih (simulates_pure rfl)

theorem reads_fail (cause : SyntaxFault) :
    v.Reads Q (Scan.fail cause : Scan α) (Scan.fail cause : Scan β) :=
  simulates_throw (.same rfl)

theorem reads_require (condition : Bool) (cause : SyntaxFault) :
    v.Reads Eq (Scan.require condition cause) (Scan.require condition cause) :=
  .ite (simulates_pure rfl) (reads_fail cause)

theorem reads_orRewind {test : Scan Bool} (hTest : v.Reads Eq test test) :
    v.Reads Eq (Scan.orRewind test) (Scan.orRewind test) := by
  intro c c' hCursors
  have hOutcome := hTest c c' hCursors
  unfold Scan.orRewind
  cases hOuter : test c with
  | ok a c₁ =>
    cases hInner : test c' with
    | ok b c₁' =>
      rw [hOuter, hInner] at hOutcome
      obtain ⟨rfl, hAfter⟩ := hOutcome
      cases a
      · exact ⟨rfl, hAfter.seek hCursors.offset⟩
      · exact ⟨rfl, hAfter⟩
    | error fault c₁' =>
      rw [hOuter, hInner] at hOutcome
      exact hOutcome.elim
  | error fault c₁ =>
    cases hInner : test c' with
    | ok b c₁' =>
      rw [hOuter, hInner] at hOutcome
      exact hOutcome.elim
    | error fault' c₁' =>
      rw [hOuter, hInner] at hOutcome
      exact hOutcome

theorem reads_skipAgain {s t : Span} (hStretch : v.Stretch s t) :
    v.Reads Eq (Scan.skipAgain s.offset s.length) (Scan.skipAgain t.offset t.length) := by
  intro c c' hCursors
  unfold Scan.skipAgain
  have hStop : c.stop ≤ c.offset + s.length ↔ c'.stop ≤ c'.offset + t.length := by
    rw [hCursors.stop_eq, hCursors.stop_eq', hCursors.offset.eq, hStretch.length_eq]
    omega
  simp only [hStop]
  split
  · exact .inr ⟨.same rfl, hCursors⟩
  · rename_i hRoom
    have hRoom : c'.offset + t.length ≤ v.stop := by
      rw [hCursors.stop_eq'] at hRoom
      omega
    have hSame : Cursor.sameBytes c.doc s.length c.offset s.offset =
        Cursor.sameBytes c'.doc t.length c'.offset t.offset := by
      rw [hCursors.doc_eq, hCursors.doc_eq', hStretch.length_eq, hCursors.offset.eq,
        hStretch.begins.eq, v.sameBytes_eq hRoom hStretch.ends.le]
    simp only [hSame]
    split
    · exact ⟨rfl, hCursors.seek (hStretch.after hCursors.offset hRoom)⟩
    · exact ⟨rfl, hCursors⟩

end Overlay
end XmlIndex
