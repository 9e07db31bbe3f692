import XmlIndex.Proofs.Guarded.Scopes
import XmlIndex.Proofs.Lexer.Markup
import XmlIndex.Proofs.Variation.Readings

/-! # Guarded readings

The readings of a lexer measure how far they have come: where a colon stands in a name, how many brackets of a
document type are open, how long an opening tag was. Each measure is taken from a place that lies behind.
-/
namespace XmlIndex
set_option autoImplicit false
open Grammar

theorem Encoding.unitSize_le_width (e : Encoding) (ch : CodePoint) : e.unitSize ≤ e.width ch :=
  Nat.le_of_dvd (Encoding.width_pos ch) (e.unitSize_dvd_width ch)

namespace Guarded
variable {σ α β : Type}

theorem lift_bind {action : EStateM Fault σ α} {next : α → EStateM Fault σ β} :
    lift (action >>= next) = lift action >>= fun a => lift (next a) := by
  funext s
  change ofResult (EStateM.bind action next s) = EStateM.bind _ _ s
  unfold EStateM.bind lift
  cases action s <;> rfl

theorem bind_eq_of_ok {ε : Type} {action : EStateM ε σ α} {next : α → EStateM ε σ β} {s s' : σ} {a : α}
    (hOk : action s = .ok a s') : (action >>= next) s = next a s' := by
  change EStateM.bind _ _ s = _
  rw [EStateM.bind, hOk]

theorem bind_eq_of_error {ε : Type} {action : EStateM ε σ α} {next : α → EStateM ε σ β} {s s' : σ} {e : ε}
    (hError : action s = .error e s') : (action >>= next) s = .error e s' := by
  change EStateM.bind _ _ s = _
  rw [EStateM.bind, hError]

theorem bind_congr_at {ε : Type} {action action' : EStateM ε σ α} {next : α → EStateM ε σ β} {s s' : σ}
    (hSame : action s = action' s') : (action >>= next) s = (action' >>= next) s' := by
  change EStateM.bind _ _ s = EStateM.bind _ _ s'
  rw [EStateM.bind, EStateM.bind, hSame]

/-- Two actions in a row agree with two others if each does where it is taken. -/
theorem bind_eq_ofResult {guarded : EStateM (Mishap Fault) σ α} {action : EStateM Fault σ α}
    {guardedNext : α → EStateM (Mishap Fault) σ β} {next : α → EStateM Fault σ β} {s : σ}
    (hFirst : guarded s = ofResult (action s))
    (hNext : ∀ a s', action s = .ok a s' → guardedNext a s' = ofResult (next a s')) :
    (guarded >>= guardedNext) s = ofResult ((action >>= next) s) := by
  change EStateM.bind _ _ s = ofResult (EStateM.bind _ _ s)
  unfold EStateM.bind
  rw [hFirst]
  cases hAction : action s with
  | error fault s' => rfl
  | ok a s' => exact hNext a s' hAction

def distance (place stop : Nat) : EStateM (Mishap Fault) σ Nat :=
  ask fun _ => minus stop place

theorem distance_bind {place stop : Nat} {next : Nat → EStateM (Mishap Fault) σ β} {s : σ} (hPlace : place ≤ stop) :
    (distance place stop >>= next) s = next (stop - place) s := by
  change EStateM.bind _ _ s = _
  unfold EStateM.bind distance ask
  rw [minus_of_le hPlace]

/-- The length of the prefix is taken at every colon. -/
def colonTest (place : Nat) (_ : Nat) (here : Nat) (ch : CodePoint) : Option Hazard :=
  if ch = CodePoint.colon ∧ here < place then some .underflow else none

def nameEnd (place : Nat) (found : CodePoint × Nat) : Reading (CodePoint × Name) := do
  let stop ← lift Scan.last
  let length ← distance place stop
  let prefixLength ← distance place found.2
  return (found.1, ⟨place, length, prefixLength⟩)

def nameRest (place : Nat) : Reading (CodePoint × Name) := do
  nameEnd place (← drive Scan.nameStep (colonTest place) place)

def feed (machine : Automaton σ α) (test : σ → (place : Nat) → CodePoint → Option Hazard) (state : σ)
    (ch : CodePoint) : Reading α := fun c =>
  match test state c.last ch with
  | some hazard => .error (.hazard hazard) c
  | none =>
    match machine state c.last ch with
    | .more state' => drive machine test state' c
    | .done result => .ok result c
    | .reject fault => .error (.fault fault) c

def nameFrom (place : Nat) (ch : CodePoint) : Reading (CodePoint × Name) := do
  nameEnd place (← feed Scan.nameStep (colonTest place) place ch)

theorem colonTest_of_le {place here colon : Nat} {ch : CodePoint} (hPlace : place ≤ here) :
    colonTest place colon here ch = none :=
  if_neg fun h => Nat.not_lt.mpr hPlace h.2

theorem last_eq_of_next {c c' : Cursor} {ch : CodePoint} (hNext : Scan.next c = .ok ch c') : c'.last = c.offset := by
  obtain ⟨-, rfl⟩ := Scan.next_eq_ok_iff.mp hNext
  exact Cursor.last_advance_singleton _

theorem driveName_eq {place colon : Nat} {c : Cursor} (hPlace : place ≤ c.offset) :
    drive Scan.nameStep (colonTest place) colon c = ofResult (Scan.drive Scan.nameStep colon c) :=
  @drive_eq _ _ Scan.nameStep (colonTest place) (fun _ c => place ≤ c.offset)
    (fun hPlace hNext => colonTest_of_le (last_eq_of_next hNext ▸ hPlace))
    (fun hPlace hNext _ => Nat.le_of_lt (Nat.lt_of_le_of_lt hPlace (Scan.next_advances hNext).offset_lt)) _ _ hPlace

theorem feedName_eq {place colon : Nat} {ch : CodePoint} {c : Cursor} (hPlace : place ≤ c.last)
    (hLast : c.last ≤ c.offset) :
    feed Scan.nameStep (colonTest place) colon ch c = ofResult (Scan.feed Scan.nameStep colon ch c) := by
  rw [feed, colonTest_of_le hPlace, Scan.feed_eq]
  cases Scan.nameStep colon c.last ch with
  | more colon' => exact driveName_eq (Nat.le_trans hPlace hLast)
  | done found => rfl
  | reject fault => rfl

theorem size_prefixOf_le {e : Encoding} {text : Chars} (hColon : CodePoint.colon ∈ text) :
    e.size (prefixOf text) + e.unitSize ≤ e.size text := by
  induction text with
  | nil => cases hColon
  | cons ch rest ih =>
    have hWidth := e.unitSize_le_width ch
    rw [prefixOf, Encoding.size_cons]
    split
    · rename_i hLater
      have hRest := ih hLater
      rw [Encoding.size_cons]
      omega
    · rw [Encoding.size_nil]
      omega

/-- Where a name ends, and that its last colon stands before the end. -/
theorem drive_nameStep_spec {c c' : Cursor} {colon : Nat} {found : CodePoint × Nat}
    (hOk : Scan.drive Scan.nameStep colon c = .ok found c') : c.offset ≤ c'.last ∧ c'.last ≤ c'.offset ∧
      (found.2 = colon ∨ c.offset ≤ found.2 ∧ found.2 + c.encoding.unitSize ≤ c'.last) := by
  obtain ⟨text, -, hAccepts, rfl⟩ := Scan.drive_eq_ok_iff.mp hOk
  obtain ⟨name, rfl, -, -, hColon⟩ := Scan.accepts_nameStep_iff.mp hAccepts
  rw [Cursor.last_advance_append, Cursor.offset_advance, Encoding.size_append]
  refine ⟨Nat.le_add_right _ _, by omega, ?_⟩
  rw [hColon, Scan.colonPlace]
  split
  · rename_i hMem
    have hPrefix := @size_prefixOf_le c.encoding name hMem
    exact .inr ⟨Nat.le_add_right _ _, by omega⟩
  · exact .inl rfl

end Guarded

/-- The name ends before `stop`, and after its prefix it has room for a colon of so many bytes. -/
structure Name.Within (stop unitSize : Nat) (name : Name) : Prop where
  end_le : name.offset + name.length ≤ stop
  prefix_le : name.prefixLength ≠ 0 → name.prefixLength + unitSize ≤ name.length

theorem Name.Within.mono {stop stop' unitSize : Nat} {name : Name} (hName : name.Within stop unitSize)
    (hStop : stop ≤ stop') : name.Within stop' unitSize :=
  ⟨Nat.le_trans hName.end_le hStop, hName.prefix_le⟩

namespace Guarded

/-- What a reading from `place` has found of a name: its end is the place of the character that follows. -/
structure EndsName (place unitSize : Nat) (found : CodePoint × Nat) (c : Cursor) : Prop where
  place_le : place ≤ c.last
  last_le : c.last ≤ c.offset
  colon : found.2 = place ∨ place ≤ found.2 ∧ found.2 + unitSize ≤ c.last

theorem EndsName.nameEnd_eq {place unitSize : Nat} {found : CodePoint × Nat} {c : Cursor}
    (hEnds : EndsName place unitSize found c) : nameEnd place found c = ofResult (Scan.nameEnd place found c) := by
  have hPlace := hEnds.place_le
  have hColon := hEnds.colon
  exact (distance_bind hPlace).trans (distance_bind (by omega))

theorem EndsName.within {place unitSize : Nat} {found : CodePoint × Nat} {c c' : Cursor} {ch : CodePoint}
    {name : Name} (hEnds : EndsName place unitSize found c) (hOk : Scan.nameEnd place found c = .ok (ch, name) c') :
    name.Within c'.offset unitSize := by
  obtain ⟨-, rfl, rfl⟩ := Scan.nameEnd_eq_ok_iff.mp hOk
  have hPlace := hEnds.place_le
  have hLast := hEnds.last_le
  have hColon := hEnds.colon
  exact ⟨by simp only; omega, by simp only; omega⟩

section
variable {place : Nat} {c c' : Cursor} {ch : CodePoint}

theorem endsName_of_drive {found : CodePoint × Nat} (hPlace : place ≤ c.offset)
    (hOk : Scan.drive Scan.nameStep place c = .ok found c') : EndsName place c.encoding.unitSize found c' := by
  obtain ⟨hEnd, hLast, hColon⟩ := drive_nameStep_spec hOk
  exact ⟨Nat.le_trans hPlace hEnd, hLast, hColon.imp_right fun h => ⟨Nat.le_trans hPlace h.1, h.2⟩⟩

/-- The place of the character that is handed on may be that of the colon. -/
theorem endsName_of_feed {found : CodePoint × Nat} (hPlace : place ≤ c.last)
    (hLast : c.last + c.encoding.unitSize ≤ c.offset) (hOk : Scan.feed Scan.nameStep place ch c = .ok found c') :
    EndsName place c.encoding.unitSize found c' := by
  rw [Scan.feed_eq, Scan.nameStep] at hOk
  by_cases hName : CodePoint.isName ch = true
  · rw [if_pos hName] at hOk
    obtain ⟨hEnd, hLast', hColon⟩ := drive_nameStep_spec hOk
    refine ⟨by omega, hLast', ?_⟩
    split at hColon <;> omega
  · rw [if_neg hName] at hOk
    cases hOk
    exact ⟨hPlace, by omega, .inl rfl⟩

theorem nameRest_eq (hPlace : place ≤ c.offset) : nameRest place c = ofResult (Scan.nameRest place c) :=
  bind_eq_ofResult (driveName_eq hPlace) fun _ _ hOk => (endsName_of_drive hPlace hOk).nameEnd_eq

theorem nameRest_within {name : Name} (hPlace : place ≤ c.offset) (hOk : Scan.nameRest place c = .ok (ch, name) c') :
    name.Within c'.offset c.encoding.unitSize := by
  obtain ⟨found, c₁, hDrive, hEnd⟩ := Scan.bind_eq_ok_iff.mp hOk
  exact (endsName_of_drive hPlace hDrive).within hEnd

theorem nameFrom_eq (hPlace : place ≤ c.last) (hLast : c.last + c.encoding.unitSize ≤ c.offset) :
    nameFrom place ch c = ofResult (Scan.nameFrom place ch c) :=
  bind_eq_ofResult (feedName_eq hPlace (by omega)) fun _ _ hOk => (endsName_of_feed hPlace hLast hOk).nameEnd_eq

theorem nameFrom_within {first : CodePoint} {name : Name} (hPlace : place ≤ c.last)
    (hLast : c.last + c.encoding.unitSize ≤ c.offset) (hOk : Scan.nameFrom place first c = .ok (ch, name) c') :
    name.Within c'.offset c.encoding.unitSize := by
  obtain ⟨found, c₁, hFeed, hEnd⟩ := Scan.bind_eq_ok_iff.mp hOk
  exact (endsName_of_feed hPlace hLast hFeed).within hEnd

end

/-- The name of the element that ends is compared with that of the one that is open, as slices. -/
def skipAgain (offset length : Nat) : Reading Bool := do
  let c ← get
  if c.stop ≤ c.offset + length then throw (.fault .endOfDocument)
  else if ← ask fun _ => sameText c.doc c.offset length offset length then
    lift (Scan.seek (c.offset + length))
    return true
  else return false

theorem skipAgain_eq {c : Cursor} {offset length : Nat} (hStop : c.stop ≤ c.doc.size)
    (hKnown : offset + length ≤ c.doc.size) : skipAgain offset length c = ofResult (Scan.skipAgain offset length c) := by
  change (if c.stop ≤ c.offset + length then _ else _ : Reading Bool) c = _
  unfold Scan.skipAgain
  split
  · rfl
  · have hSame := @sameText_eq Fault c.doc c.offset length offset length (by omega) hKnown
    rw [Namespace.sameText, beq_self_eq_true, Bool.true_and] at hSame
    change EStateM.bind _ _ c = _
    unfold EStateM.bind ask
    rw [hSame]
    dsimp only
    cases Cursor.sameBytes c.doc length c.offset offset <;> rfl

def valueTest : AttributeValue.State → (place : Nat) → CodePoint → Option Hazard
  | .reference state, _, ch => referenceTest state ch
  | .body, _, _ => none

def attributeValue (quote : CodePoint) : Reading Unit :=
  drive (fun state _ ch => AttributeValue.step quote state ch) valueTest .body

def ValueFits : AttributeValue.State → Prop
  | .reference state => Fits state
  | .body => True

theorem valueTest_of_fits {state : AttributeValue.State} {place : Nat} {ch : CodePoint} (hFits : ValueFits state) :
    valueTest state place ch = none := by
  cases state with
  | body => rfl
  | reference inner => exact referenceTest_of_fits hFits

theorem valueFits_of_step {quote ch : CodePoint} {state state' : AttributeValue.State}
    (hMore : AttributeValue.step quote state ch = .more state') : ValueFits state' := by
  cases state with
  | body =>
    rw [AttributeValue.step] at hMore
    repeat' split at hMore
    all_goals cases hMore
    all_goals trivial
  | reference inner =>
    rw [AttributeValue.step] at hMore
    split at hMore <;> cases hMore
    · exact fits_of_step ‹_›
    · trivial

theorem attributeValue_eq (quote : CodePoint) : attributeValue quote = lift (Scan.attributeValue quote) :=
  funext fun _ => @drive_eq _ _ (fun state _ ch => AttributeValue.step quote state ch) _ (fun state _ => ValueFits state)
    (fun hFits _ => valueTest_of_fits hFits) (fun _ _ hMore => valueFits_of_step hMore) _ _ trivial

def textTest : Text.State → (place : Nat) → CodePoint → Option Hazard
  | .reference state, _, ch => referenceTest state ch
  | _, _, _ => none

def textFrom : Text.State → Scan Unit :=
  Scan.drive fun state _ ch => Text.step state ch

def text : Reading Unit :=
  drive (fun state _ ch => Text.step state ch) textTest .plain

def TextFits : Text.State → Prop
  | .reference state => Fits state
  | _ => True

theorem textTest_of_fits {state : Text.State} {place : Nat} {ch : CodePoint} (hFits : TextFits state) :
    textTest state place ch = none := by
  cases state with
  | reference inner => exact referenceTest_of_fits hFits
  | plain | bracket | brackets => rfl

theorem textFits_of_plainStep {ch : CodePoint} {state : Text.State} (hMore : Text.plainStep ch = .more state) :
    TextFits state := by
  unfold Text.plainStep at hMore
  repeat' split at hMore
  all_goals cases hMore
  all_goals trivial

theorem textFits_of_step {state state' : Text.State} {ch : CodePoint} (hMore : Text.step state ch = .more state') :
    TextFits state' := by
  cases state with
  | plain => exact textFits_of_plainStep hMore
  | bracket =>
    rw [Text.step] at hMore
    split at hMore
    · cases hMore
      trivial
    · exact textFits_of_plainStep hMore
  | brackets =>
    rw [Text.step] at hMore
    repeat' split at hMore
    · cases hMore
      trivial
    · cases hMore
    · exact textFits_of_plainStep hMore
  | reference inner =>
    rw [Text.step] at hMore
    split at hMore <;> cases hMore
    · exact fits_of_step ‹_›
    · trivial

theorem text_eq : text = lift (textFrom .plain) :=
  funext fun _ => @drive_eq _ _ (fun state _ ch => Text.step state ch) _ (fun state _ => TextFits state)
    (fun hFits _ => textTest_of_fits hFits) (fun _ _ hMore => textFits_of_step hMore) _ _ trivial

theorem skip_advances {expected : CodePoint} {c c' : Cursor} (hOk : Scan.skip expected c = .ok true c') :
    c.Advances c' := by
  obtain ⟨hReads, rfl⟩ := Scan.skip_eq_ok_true_iff.mp hOk
  exact Scan.next_advances (Scan.next_eq_ok_iff.mpr ⟨hReads, rfl⟩)

def skipWhile (expected : CodePoint) : Scan Unit := fun c =>
  match _ : Scan.skip expected c with
  | .ok true c' => skipWhile expected c'
  | .ok false c' => .ok () c'
  | .error fault c' => .error fault c'
termination_by c => c.stop - c.offset
decreasing_by
  have hAdvances := skip_advances ‹Scan.skip _ _ = _›
  have := hAdvances.stop_eq
  have := hAdvances.offset_lt
  have := hAdvances.offset_le
  omega

def moreBrackets : Scan Unit := do
  skipWhile CodePoint.rightBracket
  if ← Scan.skip CodePoint.greaterThan then Scan.fail .sectionEnd else pure ()

def brackets : Scan Unit := do
  if ← Scan.skip CodePoint.rightBracket then moreBrackets else pure ()

def firstText (ch : CodePoint) : Scan Unit :=
  if CodePoint.isContent ch then pure ()
  else if ch = CodePoint.ampersand then do
    let _ ← Scan.reference
  else if ch = CodePoint.rightBracket then brackets
  else Scan.fail (.invalidCharacter .text)

def textStart (ch : CodePoint) : Reading Unit :=
  if ch = CodePoint.ampersand then do
    let _ ← reference
  else lift (firstText ch)

theorem textStart_eq (ch : CodePoint) : textStart ch = lift (firstText ch) := by
  unfold textStart
  split
  · rename_i hReference
    have hFirst : firstText ch = Scan.reference >>= fun _ => pure () := by
      rw [hReference]
      rfl
    rw [reference_eq, hFirst, lift_bind]
    rfl
  · rfl

theorem skip_eq_of_next_ok {c c' : Cursor} {expected ch : CodePoint} (hNext : Scan.next c = .ok ch c') :
    Scan.skip expected c = if ch = expected then .ok true c' else .ok false c := by
  unfold Scan.next at hNext
  unfold Scan.skip
  split at hNext <;> cases hNext
  rfl

theorem skip_eq_of_next_error {c c' : Cursor} {expected : CodePoint} {fault : Fault}
    (hNext : Scan.next c = .error fault c') : Scan.skip expected c = .error fault c' := by
  unfold Scan.next at hNext
  unfold Scan.skip
  split at hNext <;> cases hNext
  rfl

theorem textFrom_of_ok {state : Text.State} {c c' : Cursor} {ch : CodePoint} (hNext : Scan.next c = .ok ch c') :
    textFrom state c =
      match Text.step state ch with
      | .more state' => textFrom state' c'
      | .done u => .ok u c'
      | .reject fault => .error fault c' := by
  rw [textFrom, Overlay.drive_of_ok hNext]
  cases Text.step state ch <;> rfl

theorem textFrom_reference (inner : Reference.State) (c : Cursor) : textFrom (.reference inner) c =
    (Scan.drive (fun state _ ch => Reference.step state ch) inner >>= fun _ => textFrom .plain) c := by
  fun_induction Scan.drive (fun state _ ch => Reference.step state ch) inner c with
  | case1 inner c fault c' hNext =>
    rw [textFrom, Overlay.drive_of_error hNext, bind_eq_of_error (Overlay.drive_of_error hNext)]
  | case2 inner c ch c' hNext inner' hMore ih =>
    have hLater : Scan.drive (fun state _ ch => Reference.step state ch) inner c =
        Scan.drive (fun state _ ch => Reference.step state ch) inner' c' := by
      rw [Overlay.drive_of_ok hNext, hMore]
    rw [textFrom_of_ok hNext, Text.step, hMore]
    exact ih.trans (bind_congr_at hLater.symm)
  | case3 inner c ch c' hNext result hDone =>
    have hOk : Scan.drive (fun state _ ch => Reference.step state ch) inner c = .ok result c' := by
      rw [Overlay.drive_of_ok hNext, hDone]
    rw [textFrom_of_ok hNext, Text.step, hDone, bind_eq_of_ok hOk]
  | case4 inner c ch c' hNext fault hReject =>
    have hError : Scan.drive (fun state _ ch => Reference.step state ch) inner c = .error fault c' := by
      rw [Overlay.drive_of_ok hNext, hReject]
    rw [textFrom_of_ok hNext, Text.step, hReject, bind_eq_of_error hError]

theorem skipWhile_of_true {expected : CodePoint} {c c' : Cursor} (hSkip : Scan.skip expected c = .ok true c') :
    skipWhile expected c = skipWhile expected c' := by
  rw [skipWhile]
  split <;> rename_i hOther <;> cases hSkip.symm.trans hOther
  rfl

theorem skipWhile_of_false {expected : CodePoint} {c c' : Cursor} (hSkip : Scan.skip expected c = .ok false c') :
    skipWhile expected c = .ok () c' := by
  rw [skipWhile]
  split <;> rename_i hOther <;> cases hSkip.symm.trans hOther
  rfl

theorem skipWhile_of_error {expected : CodePoint} {c c' : Cursor} {fault : Fault}
    (hSkip : Scan.skip expected c = .error fault c') : skipWhile expected c = .error fault c' := by
  rw [skipWhile]
  split <;> rename_i hOther <;> cases hSkip.symm.trans hOther
  rfl

/-- A character after brackets that is none of them is looked at twice. -/
theorem textFrom_brackets (c : Cursor) :
    textFrom .brackets c = (moreBrackets >>= fun _ => textFrom .plain) c := by
  unfold moreBrackets
  rw [bind_assoc]
  fun_induction skipWhile CodePoint.rightBracket c with
  | case1 c c' hSkip ih =>
    obtain ⟨hReads, rfl⟩ := Scan.skip_eq_ok_true_iff.mp hSkip
    rw [textFrom_of_ok (Scan.next_eq_ok_iff.mpr ⟨hReads, rfl⟩)]
    exact ih.trans (bind_congr_at (skipWhile_of_true hSkip).symm)
  | case2 c c' hSkip =>
    obtain ⟨ch, hOther, hReads, rfl⟩ := Scan.skip_eq_ok_false_iff.mp hSkip
    have hNext := Scan.next_eq_ok_iff.mpr ⟨hReads, rfl⟩
    rw [bind_eq_of_ok (skipWhile_of_false hSkip), textFrom_of_ok hNext, Text.step, if_neg hOther]
    have hEnd := @skip_eq_of_next_ok _ _ CodePoint.greaterThan ch hNext
    by_cases hGreater : ch = CodePoint.greaterThan
    · rw [if_pos hGreater] at hEnd ⊢
      rw [bind_assoc, bind_eq_of_ok hEnd]
      rfl
    · rw [if_neg hGreater] at hEnd ⊢
      rw [bind_assoc, bind_eq_of_ok hEnd]
      exact (@textFrom_of_ok .plain _ _ _ hNext).symm
  | case3 c fault c' hSkip =>
    rw [bind_eq_of_error (skipWhile_of_error hSkip)]
    cases hNext : Scan.next c with
    | ok ch c₁ =>
      rw [skip_eq_of_next_ok hNext] at hSkip
      split at hSkip <;> cases hSkip
    | error fault' c₁ =>
      rw [skip_eq_of_next_error hNext] at hSkip
      cases hSkip
      exact Overlay.drive_of_error hNext

theorem textFrom_bracket (c : Cursor) : textFrom .bracket c = (brackets >>= fun _ => textFrom .plain) c := by
  unfold brackets
  rw [bind_assoc]
  cases hNext : Scan.next c with
  | error fault c' =>
    rw [bind_eq_of_error (skip_eq_of_next_error hNext)]
    exact Overlay.drive_of_error hNext
  | ok ch c' =>
    have hSkip := @skip_eq_of_next_ok _ _ CodePoint.rightBracket ch hNext
    rw [textFrom_of_ok hNext, Text.step]
    by_cases hBracket : ch = CodePoint.rightBracket
    · rw [if_pos hBracket] at hSkip ⊢
      rw [bind_eq_of_ok hSkip]
      exact textFrom_brackets c'
    · rw [if_neg hBracket] at hSkip ⊢
      rw [bind_eq_of_ok hSkip]
      exact (@textFrom_of_ok .plain _ _ _ hNext).symm

/-- Text is its first characters and the rest. -/
theorem scanText_eq {ch : CodePoint} (hText : ch ≠ CodePoint.lessThan) :
    Scan.text ch = firstText ch >>= fun _ => textFrom .plain := by
  funext c
  rw [Scan.text, Scan.feed_eq, Text.step, Text.plainStep, if_neg hText, firstText]
  split
  · rfl
  · split
    · exact (textFrom_reference .start c).trans (by rw [bind_assoc]; rfl)
    · split
      · exact textFrom_bracket c
      · rfl

end Guarded
end XmlIndex
