import XmlIndex.Proofs.Scan.Reading

/-! # When reading succeeds

One statement for each reading action: it succeeds exactly if the text at the cursor has a certain
form, and leaves the cursor after the part of it that it consumes.
-/
namespace XmlIndex
set_option autoImplicit false

section
variable {ε σ α : Type} {s s' : σ}

theorem pure_eq_ok_iff {a b : α} :
    (pure a : EStateM ε σ α) s = .ok b s' ↔ b = a ∧ s' = s := by
  change EStateM.Result.ok a s = .ok b s' ↔ _
  rw [EStateM.Result.ok.injEq, eq_comm, @eq_comm _ s]

theorem throw_eq_ok_iff {fault : ε} {b : α} :
    (throw fault : EStateM ε σ α) s = .ok b s' ↔ False := by
  change EStateM.Result.error fault s = .ok b s' ↔ False
  simp

end

namespace Automaton
variable {σ α : Type}

/-- Run over exactly this text from `place` on, the automaton accepts at its last character. -/
def Accepts (machine : Automaton σ α) (e : Encoding) :
    (state : σ) → (place : Nat) → List CodePoint → α → Prop
  | _, _, [], _ => False
  | state, place, ch :: rest, a =>
    match machine state place ch with
    | .more state' => Accepts machine e state' (place + e.width ch) rest a
    | .done a' => rest = [] ∧ a = a'
    | .reject _ => False

variable {machine : Automaton σ α} {e : Encoding} {state : σ} {place : Nat} {ch : CodePoint}
  {rest : List CodePoint} {a : α}

theorem not_accepts_nil : ¬machine.Accepts e state place [] a :=
  id

theorem accepts_of_more {m : Automaton σ α} {t : σ} (hStep : m state place ch = .more t) :
    m.Accepts e state place (ch :: rest) a ↔ m.Accepts e t (place + e.width ch) rest a := by
  rw [Accepts, hStep]

theorem accepts_of_done {m : Automaton σ α} {b : α} (hStep : m state place ch = .done b) :
    m.Accepts e state place (ch :: rest) a ↔ rest = [] ∧ a = b := by
  rw [Accepts, hStep]

theorem accepts_of_reject {m : Automaton σ α} {fault : Fault} (hStep : m state place ch = .reject fault) :
    m.Accepts e state place (ch :: rest) a ↔ False := by
  rw [Accepts, hStep]

end Automaton

namespace Scan
variable {c c' : Cursor} {text rest : List CodePoint} {ch expected : CodePoint}

theorem next_eq_ok_iff : next c = .ok ch c' ↔ c.Reads [ch] ∧ c' = c.advance [ch] := by
  unfold next
  constructor
  · intro hOk
    split at hOk
    · cases hOk
    · obtain ⟨hReads, rfl⟩ := Cursor.reads_of_charAt ‹_›
      cases hOk
      exact ⟨hReads, rfl⟩
  · rintro ⟨hReads, rfl⟩
    rw [Cursor.reads_singleton_iff.mp hReads]
    rfl

theorem skip_eq_ok_true_iff :
    skip expected c = .ok true c' ↔ c.Reads [expected] ∧ c' = c.advance [expected] := by
  unfold skip
  constructor
  · intro hOk
    split at hOk
    · cases hOk
    · obtain ⟨hReads, rfl⟩ := Cursor.reads_of_charAt ‹_›
      split at hOk
      · subst ‹_ = expected›
        cases hOk
        exact ⟨hReads, rfl⟩
      · cases hOk
  · rintro ⟨hReads, rfl⟩
    rw [Cursor.reads_singleton_iff.mp hReads]
    exact if_pos rfl

theorem skip_eq_ok_false_iff :
    skip expected c = .ok false c' ↔ ∃ ch, ch ≠ expected ∧ c.Reads [ch] ∧ c' = c := by
  unfold skip
  constructor
  · intro hOk
    split at hOk
    · cases hOk
    · obtain ⟨hReads, rfl⟩ := Cursor.reads_of_charAt ‹_›
      split at hOk
      · cases hOk
      · cases hOk
        exact ⟨_, ‹_›, hReads, rfl⟩
  · rintro ⟨ch, hDiffers, hReads, rfl⟩
    rw [Cursor.reads_singleton_iff.mp hReads]
    exact if_neg hDiffers

theorem skipAll_eq_ok_true_iff {expected : List CodePoint} :
    skipAll expected c = .ok true c' ↔ c.Reads expected ∧ c' = c.advance expected := by
  induction expected generalizing c with
  | nil =>
    rw [skipAll, pure_eq_ok_iff]
    exact ⟨fun h => ⟨trivial, h.2⟩, fun h => ⟨rfl, h.2⟩⟩
  | cons ch rest ih =>
    rw [skipAll, bind_eq_ok_iff, Cursor.reads_cons, Cursor.advance]
    constructor
    · rintro ⟨b, c₁, hSkip, hRest⟩
      cases b with
      | false => cases (pure_eq_ok_iff.mp hRest).1
      | true =>
        obtain ⟨hHead, rfl⟩ := skip_eq_ok_true_iff.mp hSkip
        obtain ⟨hTail, rfl⟩ := ih.mp hRest
        exact ⟨⟨hHead, hTail⟩, rfl⟩
    · rintro ⟨⟨hHead, hTail⟩, rfl⟩
      exact ⟨true, c.advance [ch], skip_eq_ok_true_iff.mpr ⟨hHead, rfl⟩, ih.mpr ⟨hTail, rfl⟩⟩

/-- Of the expected characters those before the first that differs are consumed. -/
theorem skipAll_eq_ok_false_iff {expected : List CodePoint} :
    skipAll expected c = .ok false c' ↔ ∃ found missing others ch, expected = found ++ missing :: others ∧
      ch ≠ missing ∧ c.Reads (found ++ [ch]) ∧ c' = c.advance found := by
  induction expected generalizing c with
  | nil => simp [skipAll, pure_eq_ok_iff]
  | cons first rest ih =>
    rw [skipAll, bind_eq_ok_iff]
    constructor
    · rintro ⟨b, c₁, hSkip, hRest⟩
      cases b with
      | false =>
        obtain ⟨ch, hDiffers, hReads, rfl⟩ := skip_eq_ok_false_iff.mp hSkip
        exact ⟨[], first, rest, ch, rfl, hDiffers, hReads, (pure_eq_ok_iff.mp hRest).2⟩
      | true =>
        obtain ⟨hHead, rfl⟩ := skip_eq_ok_true_iff.mp hSkip
        obtain ⟨found, missing, others, ch, rfl, hDiffers, hReads, rfl⟩ := ih.mp hRest
        exact ⟨first :: found, missing, others, ch, rfl, hDiffers,
          Cursor.reads_cons.mpr ⟨hHead, hReads⟩, rfl⟩
    · rintro ⟨found, missing, others, ch, hExpected, hDiffers, hReads, rfl⟩
      cases found with
      | nil =>
        cases hExpected
        exact ⟨false, c, skip_eq_ok_false_iff.mpr ⟨ch, hDiffers, hReads, rfl⟩,
          pure_eq_ok_iff.mpr ⟨rfl, rfl⟩⟩
      | cons d found =>
        obtain ⟨rfl, rfl⟩ := List.cons.inj hExpected
        rw [List.cons_append, Cursor.reads_cons] at hReads
        exact ⟨true, c.advance [first], skip_eq_ok_true_iff.mpr ⟨hReads.1, rfl⟩,
          ih.mpr ⟨found, missing, others, ch, rfl, hDiffers, hReads.2, rfl⟩⟩

theorem skipAny_eq_ok_true_iff {choices : List CodePoint} :
    skipAny choices c = .ok true c' ↔ ∃ ch ∈ choices, c.Reads [ch] ∧ c' = c.advance [ch] := by
  induction choices with
  | nil => simp [skipAny, pure_eq_ok_iff]
  | cons first rest ih =>
    rw [skipAny, bind_eq_ok_iff]
    constructor
    · rintro ⟨b, c₁, hSkip, hRest⟩
      cases b with
      | false =>
        obtain ⟨-, -, -, rfl⟩ := skip_eq_ok_false_iff.mp hSkip
        obtain ⟨ch, hch, h⟩ := ih.mp hRest
        exact ⟨ch, List.mem_cons_of_mem _ hch, h⟩
      | true =>
        obtain ⟨hReads, rfl⟩ := skip_eq_ok_true_iff.mp hSkip
        exact ⟨first, List.mem_cons_self, hReads, (pure_eq_ok_iff.mp hRest).2⟩
    · rintro ⟨ch, hch, hReads, rfl⟩
      by_cases hFirst : ch = first
      · subst hFirst
        exact ⟨true, _, skip_eq_ok_true_iff.mpr ⟨hReads, rfl⟩, pure_eq_ok_iff.mpr ⟨rfl, rfl⟩⟩
      · refine ⟨false, c, skip_eq_ok_false_iff.mpr ⟨ch, hFirst, hReads, rfl⟩, ih.mpr ?_⟩
        exact ⟨ch, (List.mem_cons.mp hch).resolve_left hFirst, hReads, rfl⟩

theorem skipAny_eq_ok_false_iff {choices : List CodePoint} (hNonempty : choices ≠ []) :
    skipAny choices c = .ok false c' ↔ ∃ ch, ch ∉ choices ∧ c.Reads [ch] ∧ c' = c := by
  induction choices with
  | nil => exact absurd rfl hNonempty
  | cons first rest ih =>
    rw [skipAny, bind_eq_ok_iff]
    constructor
    · rintro ⟨b, c₁, hSkip, hRest⟩
      cases b with
      | true => cases (pure_eq_ok_iff.mp hRest).1
      | false =>
        obtain ⟨ch, hDiffers, hReads, rfl⟩ := skip_eq_ok_false_iff.mp hSkip
        cases rest with
        | nil => exact ⟨ch, by simpa using hDiffers, hReads, (pure_eq_ok_iff.mp hRest).2⟩
        | cons second rest =>
          obtain ⟨ch', hOthers, hReads', rfl⟩ := (ih (List.cons_ne_nil _ _)).mp hRest
          obtain rfl := hReads'.head_eq hReads
          exact ⟨ch, fun h => (List.mem_cons.mp h).elim hDiffers hOthers, hReads, rfl⟩
    · rintro ⟨ch, hOthers, hReads, rfl⟩
      rw [List.mem_cons, not_or] at hOthers
      refine ⟨false, c', skip_eq_ok_false_iff.mpr ⟨ch, hOthers.1, hReads, rfl⟩, ?_⟩
      cases rest with
      | nil => exact pure_eq_ok_iff.mpr ⟨rfl, rfl⟩
      | cons second rest =>
        exact (ih (List.cons_ne_nil _ _)).mpr ⟨ch, hOthers.2, hReads, rfl⟩

theorem drive_eq_ok_iff {σ α : Type} {machine : Automaton σ α} {state : σ} {a : α} :
    drive machine state c = .ok a c' ↔
      ∃ text, c.Reads text ∧ machine.Accepts c.encoding state c.offset text a ∧
        c' = c.advance text := by
  fun_induction drive machine state c with
  | case1 state c fault c₁ hNext =>
    simp only [reduceCtorEq, false_iff]
    rintro ⟨text, hReads, hAccepts, -⟩
    cases text with
    | nil => exact hAccepts
    | cons ch rest =>
      rw [next_eq_ok_iff.mpr ⟨(Cursor.reads_cons.mp hReads).1, rfl⟩] at hNext
      cases hNext
  | case2 state c ch c₁ hNext state' hMore ih =>
    obtain ⟨hHead, rfl⟩ := next_eq_ok_iff.mp hNext
    rw [ih]
    constructor
    · rintro ⟨text, hReads, hAccepts, rfl⟩
      refine ⟨ch :: text, Cursor.reads_cons.mpr ⟨hHead, hReads⟩, ?_, rfl⟩
      exact (Automaton.accepts_of_more hMore).mpr hAccepts
    · rintro ⟨text, hReads, hAccepts, rfl⟩
      cases text with
      | nil => exact hAccepts.elim
      | cons d rest =>
        obtain rfl := hHead.head_eq hReads
        exact ⟨rest, (Cursor.reads_cons.mp hReads).2, (Automaton.accepts_of_more hMore).mp hAccepts,
          rfl⟩
  | case3 state c ch c₁ hNext result hDone =>
    obtain ⟨hHead, rfl⟩ := next_eq_ok_iff.mp hNext
    rw [EStateM.Result.ok.injEq]
    constructor
    · rintro ⟨rfl, rfl⟩
      exact ⟨[ch], hHead, (Automaton.accepts_of_done hDone).mpr ⟨rfl, rfl⟩, rfl⟩
    · rintro ⟨text, hReads, hAccepts, rfl⟩
      cases text with
      | nil => exact hAccepts.elim
      | cons d rest =>
        obtain rfl := hHead.head_eq hReads
        obtain ⟨rfl, rfl⟩ := (Automaton.accepts_of_done hDone).mp hAccepts
        exact ⟨rfl, rfl⟩
  | case4 state c ch c₁ hNext fault hReject =>
    obtain ⟨hHead, rfl⟩ := next_eq_ok_iff.mp hNext
    simp only [reduceCtorEq, false_iff]
    rintro ⟨text, hReads, hAccepts, -⟩
    cases text with
    | nil => exact hAccepts
    | cons d rest =>
      obtain rfl := hHead.head_eq hReads
      exact (Automaton.accepts_of_reject hReject).mp hAccepts

section
variable {σ α : Type} {machine : Automaton σ α} {state state' : σ} {a : α}

theorem feed_eq : feed machine state ch c =
    (match machine state c.last ch with
      | .more state' => drive machine state'
      | .done result => pure result
      | .reject fault => throw fault) c :=
  rfl

theorem feed_of_more (hStep : machine state c.last ch = .more state') :
    feed machine state ch c = drive machine state' c := by
  rw [feed_eq, hStep]

theorem feed_of_done (hStep : machine state c.last ch = .done a) :
    feed machine state ch c = .ok a c := by
  rw [feed_eq, hStep]
  rfl

end

/-- An automaton fed a consumed character runs as if from before it. -/
theorem feed_eq_ok_iff {σ α : Type} {machine : Automaton σ α} {state : σ} {a : α}
    (hReads : c.Reads [ch]) :
    feed machine state ch (c.advance [ch]) = .ok a c' ↔
      ∃ text, c.Reads (ch :: text) ∧ machine.Accepts c.encoding state c.offset (ch :: text) a ∧
        c' = c.advance (ch :: text) := by
  rw [feed_eq, Cursor.last_advance_singleton]
  cases hStep : machine state c.offset ch with
  | more state' =>
    rw [drive_eq_ok_iff]
    constructor
    · rintro ⟨text, hText, hAccepts, rfl⟩
      exact ⟨text, Cursor.reads_cons.mpr ⟨hReads, hText⟩,
        (Automaton.accepts_of_more hStep).mpr hAccepts, rfl⟩
    · rintro ⟨text, hText, hAccepts, rfl⟩
      exact ⟨text, (Cursor.reads_cons.mp hText).2, (Automaton.accepts_of_more hStep).mp hAccepts, rfl⟩
  | done result =>
    simp only [pure_eq_ok_iff, Automaton.accepts_of_done hStep]
    constructor
    · rintro ⟨rfl, rfl⟩
      exact ⟨[], hReads, ⟨rfl, rfl⟩, rfl⟩
    · rintro ⟨_, -, ⟨rfl, rfl⟩, rfl⟩
      exact ⟨rfl, rfl⟩
  | reject fault =>
    simp only [throw_eq_ok_iff, Automaton.accepts_of_reject hStep, false_and, and_false,
      exists_false]

theorem offset_eq_ok_iff {n : Nat} : offset c = .ok n c' ↔ n = c.offset ∧ c' = c := by
  rw [offset, EStateM.Result.ok.injEq, eq_comm, @eq_comm _ c]

theorem last_eq_ok_iff {n : Nat} : last c = .ok n c' ↔ n = c.last ∧ c' = c := by
  rw [last, EStateM.Result.ok.injEq, eq_comm, @eq_comm _ c]

theorem require_eq_ok_iff {condition : Bool} {cause : SyntaxFault} {u : Unit} :
    require condition cause c = .ok u c' ↔ condition = true ∧ c' = c := by
  unfold require
  split
  · simp [pure_eq_ok_iff, *]
  · simp [fail, throw_eq_ok_iff, *]

end Scan
end XmlIndex
