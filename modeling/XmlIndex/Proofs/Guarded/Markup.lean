import XmlIndex.Proofs.Guarded.Readings

/-! # Guarded markup

A body is as long as what was read of it without its terminator, which therefore has to be there. The two
hyphens that end a comment are measured before the character after them is known.
-/
namespace XmlIndex
set_option autoImplicit false
open Grammar

namespace Guarded
variable {σ α : Type}

/-- If every character raises the rank of a state by one at most, an automaton that ends at a rank has read as many
characters, each of which takes a code unit or more. -/
theorem drive_room {machine : Automaton σ α} {rank : σ → Nat} {least : Nat}
    (hMore : ∀ {state place ch state'}, machine state place ch = .more state' → rank state' ≤ rank state + 1)
    (hDone : ∀ {state place ch result}, machine state place ch = .done result → least ≤ rank state + 1)
    {state : σ} {c c' : Cursor} {a : α} (hOk : Scan.drive machine state c = .ok a c') :
    c.offset + (least - rank state) * c.encoding.unitSize ≤ c'.offset := by
  have hWidth {c c' : Cursor} {ch : CodePoint} (hNext : Scan.next c = .ok ch c') :
      c.offset + c.encoding.unitSize ≤ c'.offset ∧ c'.encoding = c.encoding := by
    obtain ⟨-, rfl⟩ := Scan.next_eq_ok_iff.mp hNext
    exact ⟨Nat.add_le_add_left (c.encoding.unitSize_le_width ch) _, rfl⟩
  fun_induction Scan.drive machine state c with
  | case1 => cases hOk
  | case2 state c ch c₁ hNext state' hStep ih =>
    have hRank : least - rank state ≤ (least - rank state') + 1 := by
      have := hMore hStep
      omega
    have hRest := ih hOk
    obtain ⟨hOffset, hEncoding⟩ := hWidth hNext
    rw [hEncoding] at hRest
    calc c.offset + (least - rank state) * c.encoding.unitSize
        ≤ c.offset + ((least - rank state') + 1) * c.encoding.unitSize :=
          Nat.add_le_add_left (Nat.mul_le_mul_right _ hRank) _
      _ = c.offset + c.encoding.unitSize + (least - rank state') * c.encoding.unitSize := by
          rw [Nat.succ_mul]
          omega
      _ ≤ c₁.offset + (least - rank state') * c.encoding.unitSize := Nat.add_le_add_right hOffset _
      _ ≤ c'.offset := hRest
  | case3 state c ch c₁ hNext result hStep =>
    cases hOk
    have hRank : least - rank state ≤ 1 := by
      have := hDone hStep
      omega
    calc c.offset + (least - rank state) * c.encoding.unitSize
        ≤ c.offset + 1 * c.encoding.unitSize := Nat.add_le_add_left (Nat.mul_le_mul_right _ hRank) _
      _ = c.offset + c.encoding.unitSize := by rw [Nat.one_mul]
      _ ≤ c'.offset := (hWidth hNext).1
  | case4 => cases hOk

def hyphensStep (state : Comment.State) (_ : Nat) (ch : CodePoint) : Verdict Comment.State Unit :=
  match Comment.step state ch with
  | .more .hyphens => .done ()
  | verdict => verdict

def hyphens : Scan Unit :=
  Scan.drive hyphensStep .body

def closeComment : Scan Unit := do
  let ch ← Scan.next
  Scan.require (ch = CodePoint.greaterThan) .doubleHyphen

theorem drive_comment_hyphens (c : Cursor) :
    Scan.drive (fun state _ ch => Comment.step state ch) .hyphens c = closeComment c := by
  cases hNext : Scan.next c with
  | error fault c' =>
    rw [Overlay.drive_of_error hNext]
    exact (bind_eq_of_error hNext).symm
  | ok ch c' =>
    rw [Overlay.drive_of_ok hNext, Comment.step]
    refine Eq.trans ?_ (bind_eq_of_ok hNext).symm
    by_cases hGreater : ch = CodePoint.greaterThan
    · rw [if_pos hGreater, decide_eq_true hGreater]
      rfl
    · rw [if_neg hGreater, decide_eq_false hGreater]
      rfl

section
variable {state state' : Comment.State} {place : Nat} {ch : CodePoint} {u : Unit}

theorem commentStep_of_more (hMore : hyphensStep state place ch = .more state') :
    Comment.step state ch = .more state' ∧ state' ≠ .hyphens := by
  unfold hyphensStep at hMore
  split at hMore
  · cases hMore
  · rename_i hOther
    refine ⟨hMore, ?_⟩
    rintro rfl
    exact hOther hMore

theorem commentStep_of_done (hState : state ≠ .hyphens) (hDone : hyphensStep state place ch = .done u) :
    Comment.step state ch = .more .hyphens := by
  unfold hyphensStep at hDone
  split at hDone
  · assumption
  · cases state with
    | hyphens => exact absurd rfl hState
    | body | hyphen =>
      simp only [Comment.step] at hDone
      repeat' split at hDone
      all_goals cases hDone

theorem commentStep_of_reject {fault : Fault} (hReject : hyphensStep state place ch = .reject fault) :
    Comment.step state ch = .reject fault := by
  unfold hyphensStep at hReject
  split at hReject
  · cases hReject
  · exact hReject

end

theorem drive_comment {state : Comment.State} (hState : state ≠ .hyphens) (c : Cursor) :
    Scan.drive (fun state _ ch => Comment.step state ch) state c =
      (Scan.drive hyphensStep state >>= fun _ => closeComment) c := by
  fun_induction Scan.drive hyphensStep state c with
  | case1 state c fault c' hNext =>
    rw [Overlay.drive_of_error hNext, bind_eq_of_error (Overlay.drive_of_error hNext)]
  | case2 state c ch c' hNext state' hMore ih =>
    obtain ⟨hStep, hState'⟩ := commentStep_of_more hMore
    have hLater : Scan.drive hyphensStep state c = Scan.drive hyphensStep state' c' := by
      rw [Overlay.drive_of_ok hNext, hMore]
    rw [Overlay.drive_of_ok hNext, hStep]
    exact (ih hState').trans (bind_congr_at hLater.symm)
  | case3 state c ch c' hNext result hDone =>
    have hOk : Scan.drive hyphensStep state c = .ok result c' := by
      rw [Overlay.drive_of_ok hNext, hDone]
    rw [Overlay.drive_of_ok hNext, commentStep_of_done hState hDone, bind_eq_of_ok hOk]
    exact drive_comment_hyphens c'
  | case4 state c ch c' hNext fault hReject =>
    have hError : Scan.drive hyphensStep state c = .error fault c' := by
      rw [Overlay.drive_of_ok hNext, hReject]
    rw [Overlay.drive_of_ok hNext, commentStep_of_reject hReject, bind_eq_of_error hError]

theorem scanComment_eq : Scan.comment = hyphens >>= fun _ => closeComment :=
  funext (drive_comment nofun)

def hyphenRank : Comment.State → Nat
  | .body => 0
  | .hyphen => 1
  | .hyphens => 2

theorem commentStep_rank {state state' : Comment.State} {ch : CodePoint} (hMore : Comment.step state ch = .more state') :
    hyphenRank state' ≤ hyphenRank state + 1 := by
  cases state with
  | hyphens =>
    rw [Comment.step] at hMore
    split at hMore <;> cases hMore
  | body | hyphen =>
    simp only [Comment.step, Bool.false_eq_true, if_false, if_true] at hMore
    repeat' split at hMore
    all_goals cases hMore
    all_goals decide

theorem hyphens_room {c c' : Cursor} {u : Unit} (hOk : hyphens c = .ok u c') :
    c.offset + 2 * c.encoding.unitSize ≤ c'.offset := by
  refine @drive_room _ _ hyphensStep hyphenRank 2 (fun hMore => commentStep_rank (commentStep_of_more hMore).1) ?_
    _ _ _ _ hOk
  intro state place ch result hDone
  by_cases hState : state = .hyphens
  · rw [hState]
    decide
  · exact Nat.le_trans (by decide) (commentStep_rank (commentStep_of_done hState hDone))

theorem closeComment_room {c c' : Cursor} {u : Unit} (hOk : closeComment c = .ok u c') :
    c'.offset = c.offset + c.encoding.unitSize ∧ c'.encoding = c.encoding := by
  obtain ⟨ch, c₁, hNext, hRequire⟩ := Scan.bind_eq_ok_iff.mp hOk
  obtain ⟨-, rfl⟩ := Scan.next_eq_ok_iff.mp hNext
  obtain ⟨hGreater, rfl⟩ := Scan.require_eq_ok_iff.mp hRequire
  rw [of_decide_eq_true hGreater, Cursor.offset_advance,
    @Encoding.size_of_ascii _ [CodePoint.greaterThan] (by decide), List.length_singleton, Nat.one_mul]
  exact ⟨rfl, rfl⟩

theorem characterSection_room {c c' : Cursor} {u : Unit} (hOk : Scan.characterSection c = .ok u c') :
    c.offset + 3 * c.encoding.unitSize ≤ c'.offset := by
  obtain ⟨body, -, -, rfl⟩ := Scan.characterSection_eq_ok_iff.mp hOk
  rw [Cursor.offset_advance, Encoding.size_append,
    @Encoding.size_of_ascii _ CharacterSection.terminator (by decide)]
  exact Nat.add_le_add_left (Nat.le_add_left _ _) _

theorem instructionData_room {c c' : Cursor} {u : Unit} (hOk : Scan.instructionData c = .ok u c') :
    c.offset + 2 * c.encoding.unitSize ≤ c'.offset := by
  obtain ⟨body, -, -, rfl⟩ := Scan.instructionData_eq_ok_iff.mp hOk
  rw [Cursor.offset_advance, Encoding.size_append,
    @Encoding.size_of_ascii _ Instruction.terminator (by decide)]
  exact Nat.add_le_add_left (Nat.le_add_left _ _) _

/-- The target of an instruction. Behind reserved letters one character is looked at, and then read again. -/
def instructionTarget : Scan CodePoint := do
  let first ← Scan.next
  Scan.require (CodePoint.isNameStart first) (.invalidCharacter .instructionTarget)
  if ← Scan.reservedLetters first then
    let ch ← Scan.next
    Scan.require (ch != CodePoint.question && !CodePoint.isSpace ch) .reservedTarget
    let place ← Scan.last
    Scan.seek place
    Scan.nextAfter CodePoint.isName
  else Scan.nextAfter CodePoint.isName

theorem next_again {c c' : Cursor} {ch : CodePoint} (hNext : Scan.next c = .ok ch c') :
    Scan.next { c' with offset := c'.last } = .ok ch c' := by
  obtain ⟨hReads, rfl⟩ := Scan.next_eq_ok_iff.mp hNext
  exact Scan.next_eq_ok_iff.mpr ⟨hReads, rfl⟩

theorem nextAfter_again {skipped : CodePoint → Bool} {c c' : Cursor} {ch : CodePoint} (hNext : Scan.next c = .ok ch c') :
    Scan.nextAfter skipped { c' with offset := c'.last } =
      (if skipped ch then Scan.nextAfter skipped else pure ch) c' := by
  rw [Scan.nextAfter, Overlay.drive_of_ok (next_again hNext)]
  cases skipped ch <;> rfl

theorem instructionTarget_eq : instructionTarget = Scan.instructionTarget := by
  unfold instructionTarget Scan.instructionTarget
  refine bind_congr fun first => bind_congr fun _ => bind_congr fun reserved => ?_
  split
  · funext c
    cases hNext : Scan.next c with
    | error fault c' => rw [bind_eq_of_error hNext, bind_eq_of_error hNext]
    | ok ch c' =>
      rw [bind_eq_of_ok hNext, bind_eq_of_ok hNext]
      unfold Scan.require
      split
      · exact nextAfter_again hNext
      · rfl
  · rfl

/-- A bracket is counted off only if one is open. -/
def documentTest (opened : Nat) (_ : Nat) (ch : CodePoint) : Option Hazard :=
  if ch = CodePoint.greaterThan ∧ opened < 1 then some .underflow else none

def documentType : Reading Unit :=
  drive (fun opened _ ch => DocumentType.step opened ch) documentTest 1

theorem one_le_of_documentStep {opened opened' : Nat} {ch : CodePoint} (hOpened : 1 ≤ opened)
    (hMore : DocumentType.step opened ch = .more opened') : 1 ≤ opened' := by
  unfold DocumentType.step at hMore
  repeat' split at hMore
  all_goals cases hMore
  all_goals omega

theorem documentType_eq : documentType = lift Scan.documentType :=
  funext fun _ => @drive_eq _ _ (fun opened _ ch => DocumentType.step opened ch) documentTest (fun opened _ => 1 ≤ opened)
    (fun hOpened _ => if_neg fun h => Nat.not_lt.mpr hOpened h.2)
    (fun hOpened _ hMore => one_le_of_documentStep hOpened hMore) _ _ (Nat.le_refl 1)

end Guarded
end XmlIndex
