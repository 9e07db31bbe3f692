import XmlIndex.Index.Load
import XmlIndex.Proofs.Index.Records

/-! # Loading actions

An action reads a stretch of bytes back if it yields their meaning and leaves whatever comes after
them. Conversely each action that succeeds has found its bytes at the front of the file.
-/
namespace XmlIndex
set_option autoImplicit false

theorem splitExactly?_append {α : Type} (first rest : List α) :
    splitExactly? first.length (first ++ rest) = some (first, rest) := by
  induction first with
  | nil => rfl
  | cons a first ih => rw [List.length_cons, List.cons_append, splitExactly?, ih]

theorem eq_append_of_splitExactly? {α : Type} {count : Nat} {all first rest : List α}
    (hSplit : splitExactly? count all = some (first, rest)) :
    all = first ++ rest ∧ first.length = count := by
  induction count generalizing all first with
  | zero =>
    cases hSplit
    exact ⟨rfl, rfl⟩
  | succ count ih =>
    cases all with
    | nil => cases hSplit
    | cons a all =>
      rw [splitExactly?] at hSplit
      split at hSplit
      · rename_i others rest' hRest
        cases hSplit
        obtain ⟨rfl, rfl⟩ := ih hRest
        exact ⟨rfl, rfl⟩
      · cases hSplit

namespace Load
variable {α β : Type} {action : Load α} {next : α → Load β} {written written' before after : List UInt8}
  {a : α} {b : β}

/-- The action reads `written` as `a`, whatever comes after it. -/
def Reads (action : Load α) (written : List UInt8) (a : α) : Prop :=
  ∀ after, action (written ++ after) = .ok (a, after)

theorem Reads.run_eq (hReads : action.Reads written a) : action.run' written = .ok a := by
  have hRun := hReads []
  rw [List.append_nil] at hRun
  change (do
    let r ← action written
    pure r.1) = _
  rw [hRun]
  rfl

theorem reads_pure : (pure a : Load α).Reads [] a :=
  fun _ => rfl

theorem Reads.bind (hAction : action.Reads written a) (hNext : (next a).Reads written' b) :
    (action >>= next).Reads (written ++ written') b := by
  intro after
  rw [List.append_assoc]
  change (action (written ++ (written' ++ after)) >>= fun r => next r.1 r.2) = _
  rw [hAction]
  exact hNext after

/-- An action that consumes nothing. -/
theorem Reads.bind_nil (hAction : action.Reads [] a) (hNext : (next a).Reads written b) :
    (action >>= next).Reads written b :=
  hAction.bind hNext

theorem reads_require {condition : Bool} {error : LoadError} (hCondition : condition = true) :
    (require condition error).Reads [] () := by
  rw [require, if_pos hCondition]
  exact reads_pure

theorem reads_orFail {error : LoadError} : (orFail (some a) error).Reads [] a :=
  reads_pure

theorem reads_lift {check : Except LoadError Unit} (hCheck : check = .ok ()) :
    (liftM check : Load Unit).Reads [] () := by
  intro after
  rw [hCheck]
  rfl

/-- An action followed by a function of its result. -/
theorem Reads.bind_pure (hAction : action.Reads written a) (f : α → β) :
    (action >>= fun a => pure (f a)).Reads written (f a) := by
  intro after
  change (action (written ++ after) >>= fun r => pure (f r.1, r.2)) = _
  rw [hAction]
  rfl

variable {count : Nat}

theorem reads_bytes (hLength : written.length = count) : (bytes count).Reads written written := by
  intro after
  rw [bytes, ← hLength, splitExactly?_append]

theorem reads_skip (hLength : written.length = count) : (skip count).Reads written () :=
  (reads_bytes hLength).bind_pure fun _ => ()

theorem reads_upTo (hLength : written.length = count) : (upTo count).Reads written written := by
  intro after
  rw [upTo, ← hLength, List.take_left, List.drop_left]

theorem reads_number {n : Nat} (hSmall : n < 256 ^ count) :
    (number count).Reads (littleEndian count n) n := by
  have hNumber := (reads_bytes (length_littleEndian count n)).bind_pure ofLittleEndian
  rwa [ofLittleEndian_littleEndian, Nat.mod_eq_of_lt hSmall] at hNumber

theorem reads_many {item : Load α} {write : α → List UInt8} {found : Array α} {list : List α}
    (hItems : ∀ a ∈ list, item.Reads (write a) a) :
    (many item list.length found).Reads (list.flatMap write) (found ++ list.toArray) := by
  induction list generalizing found with
  | nil =>
    rw [List.append_toArray, List.append_nil]
    exact reads_pure
  | cons a list ih =>
    obtain ⟨hItem, hRest⟩ := List.forall_mem_cons.mp hItems
    have hMany : (item >>= fun a => many item list.length (found.push a)).Reads _ _ :=
      hItem.bind (ih hRest)
    have hArray : found.push a ++ list.toArray = found ++ (a :: list).toArray := by simp
    rwa [hArray] at hMany

/-- Items after their number. -/
theorem reads_counted {item : Load α} {write : α → List UInt8} {items : Array α}
    (hItems : ∀ a ∈ items, item.Reads (write a) a) (hCount : items.size < 0x10000000000000000) :
    (counted item).Reads (littleEndian 8 items.size ++ items.toList.flatMap write) items := by
  have hMany : (many item items.size #[]).Reads (items.toList.flatMap write) items := by
    have hAll := @reads_many _ item write #[] items.toList fun a ha => hItems a (Array.mem_toList_iff.mp ha)
    simpa using hAll
  exact (reads_number hCount).bind hMany

theorem bind_of_ok (hOk : action before = .ok (a, after)) : (action >>= next) before = next a after := by
  change (action before >>= fun r => next r.1 r.2) = _
  rw [hOk]
  rfl

theorem bind_of_error {error : LoadError} (hError : action before = .error error) :
    (action >>= next) before = .error error := by
  change (action before >>= fun r => next r.1 r.2) = _
  rw [hError]
  rfl

theorem exists_of_run (hOk : action.run' before = .ok a) : ∃ after, action before = .ok (a, after) := by
  change (action before >>= fun r => pure r.1) = _ at hOk
  cases hAction : action before with
  | error error =>
    rw [hAction] at hOk
    cases hOk
  | ok found =>
    rw [hAction] at hOk
    cases hOk
    exact ⟨found.2, rfl⟩

theorem bind_require_of_true {condition : Bool} {error : LoadError} {next : Unit → Load β}
    (hCondition : condition = true) : (require condition error >>= next) before = next () before := by
  rw [require, if_pos hCondition, pure_bind]

theorem bind_require_of_false {condition : Bool} {error : LoadError} {next : Unit → Load β}
    (hCondition : condition = false) : (require condition error >>= next) before = .error error := by
  rw [require, if_neg (Bool.eq_false_iff.mp hCondition)]
  exact bind_of_error rfl

theorem bind_eq_ok_iff : (action >>= next) before = .ok (b, after) ↔
    ∃ a between, action before = .ok (a, between) ∧ next a between = .ok (b, after) := by
  change (action before >>= fun r => next r.1 r.2) = _ ↔ _
  cases action before with
  | error error => exact ⟨nofun, nofun⟩
  | ok found =>
    obtain ⟨a, between⟩ := found
    constructor
    · intro hNext
      exact ⟨a, between, rfl, hNext⟩
    · rintro ⟨_, _, ⟨⟩, hNext⟩
      exact hNext

theorem pure_eq_ok_iff {found : α} : (pure a : Load α) before = .ok (found, after) ↔
    found = a ∧ after = before := by
  change Except.ok (a, before) = _ ↔ _
  rw [Except.ok.injEq, Prod.mk.injEq, eq_comm, @eq_comm _ before]

theorem require_eq_ok_iff {condition : Bool} {error : LoadError} {u : Unit} :
    require condition error before = .ok (u, after) ↔ condition = true ∧ after = before := by
  unfold require
  cases condition
  · exact ⟨nofun, fun h => Bool.noConfusion h.1⟩
  · exact pure_eq_ok_iff.trans (by simp)

theorem orFail_eq_ok_iff {a? : Option α} {error : LoadError} :
    orFail a? error before = .ok (a, after) ↔ a? = some a ∧ after = before := by
  cases a? with
  | none => exact ⟨nofun, fun h => nomatch h.1⟩
  | some found =>
    refine pure_eq_ok_iff.trans ?_
    rw [Option.some.injEq, eq_comm]

theorem lift_eq_ok_iff {check : Except LoadError Unit} {u : Unit} :
    (liftM check : Load Unit) before = .ok (u, after) ↔ check = .ok () ∧ after = before := by
  cases check with
  | error error => exact ⟨nofun, fun h => nomatch h.1⟩
  | ok => exact pure_eq_ok_iff.trans (by simp)

theorem bytes_eq_ok_iff : bytes count before = .ok (written, after) ↔
    before = written ++ after ∧ written.length = count := by
  unfold bytes
  constructor
  · intro hBytes
    split at hBytes
    · cases hBytes
      exact eq_append_of_splitExactly? ‹_›
    · cases hBytes
  · rintro ⟨rfl, rfl⟩
    rw [splitExactly?_append]

theorem lt_of_number {n : Nat} (hNumber : number count before = .ok (n, after)) : n < 256 ^ count := by
  obtain ⟨read, _, hBytes, hPure⟩ := bind_eq_ok_iff.mp hNumber
  obtain ⟨rfl, rfl⟩ := pure_eq_ok_iff.mp hPure
  obtain ⟨-, rfl⟩ := bytes_eq_ok_iff.mp hBytes
  exact ofLittleEndian_lt read

/-- What holds of every item holds of all that are read. -/
theorem forall_of_many {P : α → Prop} {item : Load α} {found all : Array α}
    (hItem : ∀ {before after a}, item before = .ok (a, after) → P a) (hFound : ∀ a ∈ found, P a)
    (hMany : many item count found before = .ok (all, after)) :
    (∀ a ∈ all, P a) ∧ all.size = found.size + count := by
  induction count generalizing found before with
  | zero =>
    obtain ⟨rfl, -⟩ := pure_eq_ok_iff.mp hMany
    exact ⟨hFound, rfl⟩
  | succ count ih =>
    obtain ⟨a, between, ha, hRest⟩ := bind_eq_ok_iff.mp hMany
    obtain ⟨hAll, hSize⟩ := ih (fun b hb => (Array.mem_push.mp hb).elim (hFound b) (· ▸ hItem ha)) hRest
    rw [Array.size_push] at hSize
    exact ⟨hAll, by omega⟩

theorem forall_of_counted {P : α → Prop} {item : Load α} {all : Array α}
    (hItem : ∀ {before after a}, item before = .ok (a, after) → P a)
    (hCounted : counted item before = .ok (all, after)) :
    (∀ a ∈ all, P a) ∧ all.size < 0x10000000000000000 := by
  obtain ⟨count, between, hCount, hMany⟩ := bind_eq_ok_iff.mp hCounted
  obtain ⟨hAll, hSize⟩ := forall_of_many hItem (by simp) hMany
  have hSmall := lt_of_number hCount
  rw [Array.size_empty] at hSize
  exact ⟨hAll, by omega⟩

end Load
end XmlIndex
