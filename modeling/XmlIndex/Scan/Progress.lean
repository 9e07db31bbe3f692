import XmlIndex.Scan.Reference

/-! # Progress of reading

A reading action that succeeds never moves its cursor back or out of its range. An action that
consumes something moves it on. Both properties pass through sequencing, so a composite action
inherits them from its parts.
-/
namespace XmlIndex
set_option autoImplicit false

namespace Cursor

structure Reaches (c c' : Cursor) : Prop where
  doc_eq : c'.doc = c.doc
  start_eq : c'.start = c.start
  stop_eq : c'.stop = c.stop
  offset_le : c.offset ≤ c'.offset
  offset_le_stop : c.offset ≤ c.stop → c'.offset ≤ c'.stop

theorem Reaches.refl (c : Cursor) : c.Reaches c :=
  ⟨rfl, rfl, rfl, Nat.le_refl _, id⟩

theorem Reaches.trans {c c' c'' : Cursor} (hFirst : c.Reaches c') (hSecond : c'.Reaches c'') :
    c.Reaches c'' where
  doc_eq := hSecond.doc_eq.trans hFirst.doc_eq
  start_eq := hSecond.start_eq.trans hFirst.start_eq
  stop_eq := hSecond.stop_eq.trans hFirst.stop_eq
  offset_le := Nat.le_trans hFirst.offset_le hSecond.offset_le
  offset_le_stop h := hSecond.offset_le_stop (hFirst.offset_le_stop h)

theorem Advances.reaches {c c' : Cursor} (hAdvances : c.Advances c') : c.Reaches c' :=
  ⟨hAdvances.doc_eq, hAdvances.start_eq, hAdvances.stop_eq, Nat.le_of_lt hAdvances.offset_lt,
    fun _ => hAdvances.offset_le⟩

theorem Advances.trans_reaches {c c' c'' : Cursor} (hFirst : c.Advances c')
    (hSecond : c'.Reaches c'') : c.Advances c'' where
  doc_eq := hSecond.doc_eq.trans hFirst.doc_eq
  start_eq := hSecond.start_eq.trans hFirst.start_eq
  stop_eq := hSecond.stop_eq.trans hFirst.stop_eq
  offset_lt := Nat.lt_of_lt_of_le hFirst.offset_lt hSecond.offset_le
  offset_le := hSecond.offset_le_stop hFirst.offset_le

theorem Reaches.trans_advances {c c' c'' : Cursor} (hFirst : c.Reaches c')
    (hSecond : c'.Advances c'') : c.Advances c'' where
  doc_eq := hSecond.doc_eq.trans hFirst.doc_eq
  start_eq := hSecond.start_eq.trans hFirst.start_eq
  stop_eq := hSecond.stop_eq.trans hFirst.stop_eq
  offset_lt := Nat.lt_of_le_of_lt hFirst.offset_le hSecond.offset_lt
  offset_le := hSecond.offset_le

end Cursor

namespace Scan
variable {α β : Type}

def Forward (action : Scan α) : Prop :=
  ∀ c a c', action c = .ok a c' → c.Reaches c'

def Progressive (action : Scan α) : Prop :=
  ∀ c a c', action c = .ok a c' → c.Advances c'

theorem bind_eq_ok_iff {action : Scan α} {next : α → Scan β} {c c'' : Cursor} {b : β} :
    (action >>= next) c = .ok b c'' ↔ ∃ a c', action c = .ok a c' ∧ next a c' = .ok b c'' := by
  change EStateM.bind action next c = _ ↔ _
  unfold EStateM.bind
  cases action c with
  | ok a c' =>
    refine ⟨fun h => ⟨a, c', rfl, h⟩, ?_⟩
    rintro ⟨_, _, hAction, hNext⟩
    cases hAction
    exact hNext
  | error fault c' => simp

theorem Progressive.forward {action : Scan α} (h : Progressive action) : Forward action :=
  fun c a c' hOk => (h c a c' hOk).reaches

theorem forward_pure (a : α) : Forward (pure a : Scan α) := by
  intro c b c' hOk
  cases hOk
  exact .refl c

theorem forward_throw (fault : Fault) : Forward (throw fault : Scan α) := by
  intro c a c' hOk
  cases hOk

theorem Forward.bind {action : Scan α} {next : α → Scan β} (hAction : Forward action)
    (hNext : ∀ a, Forward (next a)) : Forward (action >>= next) := by
  intro c b c'' hOk
  obtain ⟨a, c', hFirst, hSecond⟩ := bind_eq_ok_iff.mp hOk
  exact (hAction c a c' hFirst).trans (hNext a c' b c'' hSecond)

theorem Forward.ite {condition : Prop} [Decidable condition] {yes no : Scan α}
    (hYes : Forward yes) (hNo : Forward no) : Forward (if condition then yes else no) := by
  split
  · exact hYes
  · exact hNo

theorem Progressive.bind {action : Scan α} {next : α → Scan β} (hAction : Progressive action)
    (hNext : ∀ a, Forward (next a)) : Progressive (action >>= next) := by
  intro c b c'' hOk
  obtain ⟨a, c', hFirst, hSecond⟩ := bind_eq_ok_iff.mp hOk
  exact (hAction c a c' hFirst).trans_reaches (hNext a c' b c'' hSecond)

theorem progressive_next : Progressive next :=
  fun _ _ _ => next_advances

theorem forward_skip (expected : CodePoint) : Forward (skip expected) := by
  intro c a c' hOk
  unfold skip at hOk
  split at hOk
  · cases hOk
  · rename_i ch width hRead
    have hWidth := charAt_width hRead
    split at hOk <;> cases hOk
    · exact ⟨rfl, rfl, rfl, by simp only; omega, fun _ => by simp only; omega⟩
    · exact .refl c

theorem forward_skipAll (expected : List CodePoint) : Forward (skipAll expected) := by
  induction expected with
  | nil => exact forward_pure true
  | cons ch rest ih =>
    refine (forward_skip ch).bind fun b => ?_
    cases b
    · exact forward_pure false
    · exact ih

theorem forward_skipAny (choices : List CodePoint) : Forward (skipAny choices) := by
  induction choices with
  | nil => exact forward_pure false
  | cons ch rest ih =>
    refine (forward_skip ch).bind fun b => ?_
    cases b
    · exact ih
    · exact forward_pure true

theorem forward_skipEach (sets : List (List CodePoint)) : Forward (skipEach sets) := by
  induction sets with
  | nil => exact forward_pure true
  | cons choices rest ih =>
    refine (forward_skipAny choices).bind fun b => ?_
    cases b
    · exact forward_pure false
    · exact ih

theorem forward_skipAgain (place length : Nat) : Forward (skipAgain place length) := by
  intro c a c' hOk
  unfold skipAgain at hOk
  split at hOk
  · cases hOk
  · split at hOk <;> cases hOk
    · exact ⟨rfl, rfl, rfl, by simp only; omega, fun _ => by simp only; omega⟩
    · exact .refl c

theorem forward_offset : Forward offset := by
  intro c a c' hOk
  cases hOk
  exact .refl _

theorem forward_last : Forward last := by
  intro c a c' hOk
  cases hOk
  exact .refl _

theorem forward_encoding : Forward encoding := by
  intro c a c' hOk
  cases hOk
  exact .refl _

theorem forward_switchEncoding (encoding : Encoding) : Forward (switchEncoding encoding) := by
  intro c a c' hOk
  cases hOk
  exact ⟨rfl, rfl, rfl, Nat.le_refl _, id⟩

theorem forward_ask (question : Cursor → Except Fault α) : Forward (ask question) := by
  intro c a c' hOk
  unfold ask at hOk
  split at hOk <;> cases hOk
  exact .refl _

theorem forward_fail (cause : SyntaxFault) : Forward (fail cause : Scan α) :=
  forward_throw _

theorem forward_require (condition : Bool) (cause : SyntaxFault) :
    Forward (require condition cause) := by
  unfold require
  split
  · exact forward_pure ()
  · exact forward_fail cause

theorem Forward.orRewind {test : Scan Bool} (hTest : Forward test) : Forward (orRewind test) := by
  intro c a c' hOk
  unfold Scan.orRewind at hOk
  split at hOk
  · rename_i c'' hFalse
    have hReaches := hTest c false c'' hFalse
    cases hOk
    exact ⟨hReaches.doc_eq, hReaches.start_eq, hReaches.stop_eq, Nat.le_refl _,
      fun h => hReaches.stop_eq ▸ h⟩
  · exact hTest c a c' hOk

theorem progressive_drive {σ : Type} (machine : Automaton σ α) (state : σ) :
    Progressive (drive machine state) := by
  intro c a c' hOk
  fun_induction drive machine state c with
  | case1 => cases hOk
  | case2 state c ch c'' hNext state' hMore ih => exact (next_advances hNext).trans_reaches (ih hOk).reaches
  | case3 state c ch c'' hNext result hDone =>
    cases hOk
    exact next_advances hNext
  | case4 => cases hOk

theorem forward_feed {σ : Type} (machine : Automaton σ α) (state : σ) (ch : CodePoint) :
    Forward (feed machine state ch) := by
  refine forward_last.bind fun place => ?_
  split
  · exact (progressive_drive machine _).forward
  · exact forward_pure _
  · exact forward_throw _

theorem progressive_nextAfter (skipped : CodePoint → Bool) : Progressive (nextAfter skipped) :=
  progressive_drive _ _

theorem forward_skipSpace (ch : CodePoint) : Forward (skipSpace ch) := by
  unfold skipSpace
  split
  · exact (progressive_nextAfter _).forward
  · exact forward_pure ch

theorem progressive_reference : Progressive reference :=
  progressive_drive _ _

theorem progressive_nextResolved : Progressive nextResolved := by
  refine progressive_next.bind fun ch => ?_
  split
  · exact progressive_reference.forward
  · exact forward_pure ch

end Scan

theorem Cursor.resolvedAt_width {c : Cursor} {offset ch width : Nat}
    (hRead : c.resolvedAt offset = .ok (ch, width)) : 0 < width := by
  unfold Cursor.resolvedAt at hRead
  split at hRead
  · rename_i ch' c' hOk
    have hAdvances := (Scan.progressive_nextResolved _ _ _ hOk).offset_lt
    cases hRead
    simp only at hAdvances
    omega
  · cases hRead

end XmlIndex
