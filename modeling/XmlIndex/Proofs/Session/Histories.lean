import XmlIndex.Session
import Mathlib.Data.List.FinRange
import Mathlib.Data.List.Induction

/-! # Histories of a session

A history is any sequence of operations on one session. Whatever the history, a parse gives what a
session just started gives, and the pending index is that of the file parsed last, unless it was
taken or dropped since. So a batch may be handed out to any number of sessions, in any order.
-/
namespace XmlIndex
set_option autoImplicit false

namespace Session

inductive Operation where
  | parse (namespaces : Bool) (doc : ByteArray)
  | parseRange (namespaces : Bool) (doc : ByteArray) (offset length : Nat)
  | parseReusing (namespaces : Bool) (doc : ByteArray) (offset length : Nat)
  | recycle (x : Index)
  | reset
  | parseFile (namespaces : Bool) (contents : Option ByteArray)
  | take

def Operation.keepsPending : Operation → Bool
  | .reset | .parseFile .. | .take => false
  | .parse .. | .parseRange .. | .parseReusing .. | .recycle _ => true

def perform (s : Session) : Operation → Session
  | .parse namespaces doc => (s.parse namespaces doc).2
  | .parseRange namespaces doc offset length => (s.parseRange namespaces doc offset length).2
  | .parseReusing namespaces doc offset length => (s.parseReusing namespaces doc offset length).2
  | .recycle x => (s.recycle x).2
  | .reset => s.reset
  | .parseFile namespaces contents => s.parseFile namespaces contents
  | .take => s.take.2

def after (options : Options) (history : List Operation) : Session :=
  history.foldl perform (start options)

/-- The scopes that a parse finds in its workspace do not matter. -/
theorem fst_parseRange_workspace (options : Options) (namespaces : Bool) (doc : ByteArray)
    (offset length : Nat) (draft : Draft) (scopes scopes' : Namespace.Scopes) :
    (Workspace.parseRange options namespaces doc offset length ⟨draft, scopes⟩).1 =
      (Workspace.parseRange options namespaces doc offset length ⟨draft, scopes'⟩).1 := by
  unfold Workspace.parseRange
  cases detect doc offset (offset + length) namespaces with
  | error cause => split <;> rfl
  | ok detected =>
    have hStart : Lexer.atStart options namespaces detected doc offset (offset + length)
          ⟨draft, scopes⟩ =
        .atStart options namespaces detected doc offset (offset + length) ⟨draft, scopes'⟩ := by
      rw [Lexer.atStart, Lexer.atStart, Namespace.Scopes.reset_eq, Namespace.Scopes.reset_eq]
    split
    · rfl
    · dsimp only
      rw [hStart]

theorem fst_parseRange (namespaces : Bool) (doc : ByteArray) (offset length : Nat) (s : Session) :
    (s.parseRange namespaces doc offset length).1 =
      XmlIndex.parseRange s.options namespaces doc offset length :=
  fst_parseRange_workspace ..

/-- Neither does what the spare draft still holds. -/
theorem fst_parseReusing (namespaces : Bool) (doc : ByteArray) (offset length : Nat) (s : Session) :
    (s.parseReusing namespaces doc offset length).1 =
      XmlIndex.parseRange s.options namespaces doc offset length := by
  rw [parseReusing, Draft.reset_eq]
  exact fst_parseRange_workspace ..

theorem fst_parse (namespaces : Bool) (doc : ByteArray) (s : Session) :
    (s.parse namespaces doc).1 = XmlIndex.parse s.options namespaces doc :=
  fst_parseRange ..

theorem options_perform (s : Session) (operation : Operation) :
    (s.perform operation).options = s.options := by
  cases operation with
  | parseFile namespaces contents => cases contents <;> rfl
  | _ => rfl

theorem pending_perform {s : Session} {operation : Operation}
    (hKeeps : operation.keepsPending = true) : (s.perform operation).pending = s.pending := by
  cases operation with
  | parse => rfl
  | parseRange => rfl
  | parseReusing => rfl
  | recycle => rfl
  | reset | parseFile | take => cases hKeeps

theorem pending_perform_parseFile (s : Session) (namespaces : Bool) (doc : ByteArray) :
    (s.perform (.parseFile namespaces (some doc))).pending =
      (XmlIndex.parse s.options namespaces doc).toOption :=
  congrArg Except.toOption (fst_parse namespaces doc s)

theorem after_append_singleton (options : Options) (history : List Operation)
    (operation : Operation) :
    after options (history ++ [operation]) = (after options history).perform operation :=
  List.foldl_concat ..

theorem options_after (options : Options) (history : List Operation) :
    (after options history).options = options := by
  induction history using List.reverseRecOn with
  | nil => rfl
  | append_singleton history operation ih => rw [after_append_singleton, options_perform, ih]

/-- The file parsed last gave `x`, and since then the pending index has been left alone. -/
def Loaded (options : Options) (history : List Operation) (x : Index) : Prop :=
  ∃ earlier namespaces doc later,
    history = earlier ++ .parseFile namespaces (some doc) :: later ∧
      (∀ operation ∈ later, operation.keepsPending = true) ∧
      ((start options).parse namespaces doc).1 = .ok x

theorem not_loaded_nil (options : Options) (x : Index) : ¬Loaded options [] x := by
  rintro ⟨earlier, namespaces, doc, later, hHistory, -, -⟩
  exact absurd hHistory.symm (by simp)

theorem loaded_append_iff {options : Options} {history : List Operation} {operation : Operation}
    {x : Index} (hKeeps : operation.keepsPending = true) :
    Loaded options (history ++ [operation]) x ↔ Loaded options history x := by
  constructor
  · rintro ⟨earlier, namespaces, doc, later, hHistory, hLater, hOk⟩
    rcases List.eq_nil_or_concat later with rfl | ⟨rest, last, rfl⟩
    · obtain ⟨-, hLast⟩ := List.append_inj' hHistory rfl
      cases hLast
      cases hKeeps
    · rw [List.concat_eq_append, ← List.cons_append, ← List.append_assoc] at hHistory
      obtain ⟨rfl, -⟩ := List.append_inj' hHistory rfl
      exact ⟨earlier, namespaces, doc, rest, rfl, fun o hMem => hLater o (by simp [hMem]), hOk⟩
  · rintro ⟨earlier, namespaces, doc, later, rfl, hLater, hOk⟩
    refine ⟨earlier, namespaces, doc, later ++ [operation], by simp, ?_, hOk⟩
    intro o hMem
    rcases List.mem_append.mp hMem with hMem | hMem
    · exact hLater o hMem
    · rwa [List.mem_singleton.mp hMem]

/-- An operation that settles anew what is pending forgets all files before it. -/
theorem loaded_append_iff_of_settles {options : Options} {history : List Operation}
    {operation : Operation} {x : Index} (hSettles : operation.keepsPending = false) :
    Loaded options (history ++ [operation]) x ↔
      ∃ namespaces doc, operation = .parseFile namespaces (some doc) ∧
        ((start options).parse namespaces doc).1 = .ok x := by
  constructor
  · rintro ⟨earlier, namespaces, doc, later, hHistory, hLater, hOk⟩
    rcases List.eq_nil_or_concat later with rfl | ⟨rest, last, rfl⟩
    · obtain ⟨-, hLast⟩ := List.append_inj' hHistory rfl
      exact ⟨namespaces, doc, List.singleton_inj.mp hLast, hOk⟩
    · rw [List.concat_eq_append, ← List.cons_append, ← List.append_assoc] at hHistory
      obtain ⟨-, hLast⟩ := List.append_inj' hHistory rfl
      rw [List.singleton_inj.mp hLast, hLater last (by simp)] at hSettles
      cases hSettles
  · rintro ⟨namespaces, doc, rfl, hOk⟩
    exact ⟨history, namespaces, doc, [], rfl, nofun, hOk⟩

theorem pending_after_eq_some_iff {options : Options} {history : List Operation} {x : Index} :
    (after options history).pending = some x ↔ Loaded options history x := by
  induction history using List.reverseRecOn with
  | nil => exact iff_of_false nofun (not_loaded_nil options x)
  | append_singleton history operation ih =>
    rw [after_append_singleton]
    cases hKeeps : operation.keepsPending with
    | true => rw [pending_perform hKeeps, ih, loaded_append_iff hKeeps]
    | false =>
      rw [loaded_append_iff_of_settles hKeeps]
      cases operation with
      | parseFile namespaces contents =>
        cases contents with
        | none => exact iff_of_false nofun (by simp)
        | some doc =>
          have hSome {result : Except Failure Index} :
              result.toOption = some x ↔ result = .ok x := by
            cases result <;> simp [Except.toOption]
          rw [pending_perform_parseFile, options_after, hSome]
          simp [fst_parse, start]
      | reset | take => exact iff_of_false nofun (by simp)
      | parse | parseRange | parseReusing | recycle => cases hKeeps

/-- Each document on its own: the sessions that parse one after the other share nothing. -/
theorem parseEach_eq (namespaces : Bool) (docs : List ByteArray) (s : Session) :
    s.parseEach namespaces docs = docs.map (XmlIndex.parse s.options namespaces) := by
  induction docs generalizing s with
  | nil => rfl
  | cons doc docs ih =>
    have hOptions : (s.parse namespaces doc).2.options = s.options := rfl
    rw [List.map_cons, ← hOptions, ← ih, hOptions, ← fst_parse]
    rfl

end Session

/-- Documents handed out to workers: each worker parses those at its positions in turn, in a session
of its own, and no document is left out. -/
structure Schedule (count : Nat) where
  workers : List (List (Fin count))
  complete : ∀ i, ∃ positions ∈ workers, i ∈ positions

namespace Schedule
variable {docs : List ByteArray}

def single (count : Nat) : Schedule count where
  workers := [List.finRange count]
  complete i := ⟨_, List.mem_singleton_self _, List.mem_finRange i⟩

/-- What the workers report, each result with the position of its document. -/
def reports (schedule : Schedule docs.length) (options : Options) (namespaces : Bool) :
    List (Fin docs.length × Except Failure Index) :=
  schedule.workers.flatMap fun positions =>
    positions.zip ((Session.start options).parseEach namespaces (positions.map docs.get))

def results (schedule : Schedule docs.length) (options : Options) (namespaces : Bool) :
    List (Option (Except Failure Index)) :=
  (List.finRange docs.length).map fun i => (schedule.reports options namespaces).lookup i

theorem reports_eq (schedule : Schedule docs.length) (options : Options) (namespaces : Bool) :
    schedule.reports options namespaces =
      schedule.workers.flatten.map fun i => (i, parse options namespaces (docs.get i)) := by
  unfold reports
  rw [List.map_flatten, ← List.flatMap_def]
  congr 1
  funext positions
  rw [Session.parseEach_eq, List.map_map, ← List.map_prod_left_eq_zip]
  rfl

/-- A list that pairs each key with a value of its own finds every key. -/
theorem lookup_map_of_mem {α β : Type} [BEq α] [LawfulBEq α] (value : α → β) {keys : List α}
    {key : α} (hMem : key ∈ keys) :
    (keys.map fun k => (k, value k)).lookup key = some (value key) := by
  induction keys with
  | nil => cases hMem
  | cons first keys ih =>
    rw [List.map_cons, List.lookup_cons]
    by_cases hFirst : key = first
    · simp [hFirst]
    · rw [beq_eq_false_iff_ne.mpr hFirst]
      exact ih ((List.mem_cons.mp hMem).resolve_left hFirst)

theorem results_eq (schedule : Schedule docs.length) (options : Options) (namespaces : Bool) :
    schedule.results options namespaces = docs.map fun doc => some (parse options namespaces doc) := by
  unfold results
  have hEach (i : Fin docs.length) : (schedule.reports options namespaces).lookup i =
      some (parse options namespaces (docs.get i)) := by
    rw [reports_eq]
    exact lookup_map_of_mem (fun i => parse options namespaces (docs.get i))
      (List.mem_flatten.mpr (schedule.complete i))
  rw [funext hEach]
  conv_rhs => rw [← List.map_get_finRange docs, List.map_map]
  rfl

end Schedule

namespace Session

/-- A session has no memory but its pending index. -/
theorem unaffected_by_history (options : Options) (history : List Operation) (namespaces : Bool) :
    (∀ doc offset length,
      ((after options history).parseRange namespaces doc offset length).1 =
          ((start options).parseRange namespaces doc offset length).1 ∧
        ((after options history).parseReusing namespaces doc offset length).1 =
          ((start options).parseRange namespaces doc offset length).1) ∧
      (∀ doc, ((after options history).parse namespaces doc).1 =
        ((start options).parseRange namespaces doc 0 doc.size).1) ∧
      (∀ x, (after options history).take.1 = some x ↔ Loaded options history x) ∧
      ∀ docs, parseAll options namespaces docs =
          docs.map (fun doc => ((start options).parseRange namespaces doc 0 doc.size).1) ∧
        ∀ schedule : Schedule docs.length, schedule.results options namespaces =
          docs.map fun doc => some ((start options).parseRange namespaces doc 0 doc.size).1 := by
  have hFresh (doc : ByteArray) (offset length : Nat) :
      ((start options).parseRange namespaces doc offset length).1 =
        XmlIndex.parseRange options namespaces doc offset length :=
    fst_parseRange ..
  refine ⟨fun doc offset length => ?_, fun doc => ?_, fun x => pending_after_eq_some_iff,
    fun docs => ⟨?_, fun schedule => ?_⟩⟩
  · rw [fst_parseReusing, fst_parseRange, options_after, hFresh]
    exact ⟨rfl, rfl⟩
  · rw [fst_parse, options_after, hFresh]
    rfl
  · simp only [hFresh]
    exact parseEach_eq namespaces docs (start options)
  · simp only [hFresh]
    exact schedule.results_eq options namespaces

end Session
end XmlIndex
