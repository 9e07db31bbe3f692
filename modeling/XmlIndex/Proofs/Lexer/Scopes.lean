import XmlIndex.Proofs.Lexer.Tags
import XmlIndex.Proofs.Scan.Resolution

/-! # Scopes and environments

The scopes know prefixes and values by where they stand in the document. Read there, the declarations
of each open element are an environment, and the checks at the end of a start tag are those of its
environment.
-/
namespace XmlIndex
set_option autoImplicit false
open Grammar

namespace Cursor
variable {c c' : Cursor}

/-- A declaration that binds a prefix to a value, which resolves. -/
structure Binds (c : Cursor) (d : Namespace.Declaration) (bound : Chars × Chars) : Prop where
  leading : c.Covers ⟨d.prefixOffset, d.prefixLength⟩ bound.1
  value : c.Covers ⟨d.uriOffset, d.uriLength⟩ bound.2
  resolves : ∃ resolved, Resolves bound.2 resolved

structure Names (c : Cursor) (n : PrefixedName) (name : Chars) : Prop where
  leading : c.Covers ⟨n.offset, n.prefixLength⟩ (prefixOf name)
  trailing : c.Covers ⟨n.localOffset, n.localLength⟩ (localOf name)

section
variable (hDoc : c'.doc = c.doc) (hStop : c'.stop = c.stop) (hEncoding : c'.encoding = c.encoding)
include hDoc hStop hEncoding

theorem Binds.congr {d : Namespace.Declaration} {bound : Chars × Chars} (hBinds : c.Binds d bound) :
    c'.Binds d bound :=
  ⟨hBinds.leading.congr hDoc hStop hEncoding, hBinds.value.congr hDoc hStop hEncoding, hBinds.resolves⟩

theorem Names.congr {n : PrefixedName} {name : Chars} (hNames : c.Names n name) : c'.Names n name :=
  ⟨hNames.leading.congr hDoc hStop hEncoding, hNames.trailing.congr hDoc hStop hEncoding⟩

end

theorem sameText_eq {span span' : Span} {text other : Chars} (hSpan : c.Covers span text)
    (hSpan' : c.Covers span' other) :
    Namespace.sameText c.doc span.offset span.length span'.offset span'.length = decide (text = other) := by
  by_cases hNonempty : other = []
  · subst hNonempty
    rw [Namespace.sameText, hSpan.length_eq, hSpan'.length_eq, Encoding.size_nil]
    by_cases hText : text = []
    · simp [hText, sameBytes]
    · rw [beq_eq_false_iff_ne.mpr (mt Encoding.size_eq_zero_iff.mp hText)]
      simp [hText]
  · rw [Bool.eq_iff_iff, sameText_iff hSpan hSpan' hNonempty, decide_eq_true_iff]

end Cursor

namespace Scan
variable {c : Cursor} {place : Nat} {name : Chars}

theorem covers_prefixOf (hReads : c.ReadsAt place name) :
    c.Covers ⟨place, c.encoding.size (prefixOf name)⟩ (prefixOf name) := by
  refine ⟨?_, rfl⟩
  by_cases hColon : CodePoint.colon ∈ name
  · rw [← prefixOf_append_localOf hColon, Cursor.readsAt_append] at hReads
    exact hReads.1
  · rw [prefixOf_of_notMem hColon]
    trivial

/-- The colon takes one code unit. -/
theorem covers_localOf (hReads : c.ReadsAt place name) (hColon : CodePoint.colon ∈ name) :
    c.Covers ((nameAt c.encoding place name).localSpan c.encoding.unitSize) (localOf name) := by
  have hSplit := prefixOf_append_localOf hColon
  have hUnit : c.encoding.width CodePoint.colon = c.encoding.unitSize := c.encoding.width_of_lt (by decide)
  have hSize := congrArg c.encoding.size hSplit
  rw [← hSplit, Cursor.readsAt_append] at hReads
  rw [Encoding.size_append, Encoding.size_cons, hUnit] at hSize
  refine ⟨hUnit ▸ hReads.2.2, ?_⟩
  simp only [Name.localSpan, nameAt]
  omega

theorem names_toPrefixed (hReads : c.ReadsAt place name) (hColon : CodePoint.colon ∈ name) :
    c.Names ((nameAt c.encoding place name).toPrefixed c.encoding.unitSize) name :=
  ⟨covers_prefixOf hReads, covers_localOf hReads hColon⟩

end Scan

namespace Namespace
variable {c : Cursor} {declarations : List Declaration} {scope : Environment} {n : PrefixedName}
  {name other : Chars} {ns : List PrefixedName} {names : List Chars}

/-- A declaration is found for a prefix just if the environment has one, and then it is the latest. -/
theorem lookup_of_binds (hBinds : List.Forall₂ c.Binds declarations scope) (hName : c.Names n name) :
    Option.Rel (fun d uri => c.Covers ⟨d.uriOffset, d.uriLength⟩ uri ∧ ∃ resolved, Resolves uri resolved)
      (lookup c declarations n) (scope.lookup (prefixOf name)) := by
  induction hBinds with
  | nil => exact .none
  | @cons d bound declarations scope hFirst hRest ih =>
    have hSame := Cursor.sameText_eq hFirst.leading hName.leading
    simp only at hSame
    obtain ⟨p, uri⟩ := bound
    rw [lookup, List.find?_cons, List.lookup_cons, hSame]
    by_cases hPrefix : p = prefixOf name
    · subst hPrefix
      rw [beq_self_eq_true, decide_eq_true rfl]
      exact .some ⟨hFirst.value, hFirst.resolves⟩
    · rw [beq_eq_false_iff_ne.mpr (Ne.symm hPrefix), decide_eq_false hPrefix]
      exact ih

theorem mem_scope_iff : name ∈ scope.map Prod.fst ↔ ∃ uri, scope.lookup name = some uri := by
  rw [← Option.isSome_iff_exists, List.lookup_isSome_iff, List.mem_map]
  simp only [beq_iff_eq, @eq_comm _ name]

theorem lookup_isSome_of_binds (hBinds : List.Forall₂ c.Binds declarations scope) (hName : c.Names n name) :
    (lookup c declarations n).isSome = true ↔ prefixOf name ∈ scope.map Prod.fst := by
  have hFound := lookup_of_binds hBinds hName
  rw [mem_scope_iff]
  revert hFound
  generalize lookup c declarations n = found, scope.lookup (prefixOf name) = found'
  rintro (_ | _) <;> simp

structure Resolved (c : Cursor) (scope : Environment) (q : PrefixedName × Declaration) (name : Chars) :
    Prop where
  names : c.Names q.1 name
  declared : ∃ uri resolved, scope.lookup (prefixOf name) = some uri ∧ Resolves uri resolved ∧
    c.Covers ⟨q.2.uriOffset, q.2.uriLength⟩ uri

theorem qualify_cons : qualify c declarations (n :: ns) =
    match lookup c declarations n, qualify c declarations ns with
    | none, _ => .error (.structural .unqualifiedAttribute (some n.offset))
    | some _, .error fault => .error fault
    | some d, .ok others => .ok ((n, d) :: others) := by
  rw [qualify]
  cases lookup c declarations n <;> cases qualify c declarations ns <;> rfl

/-- Names are qualified together just if the prefix of each is declared. -/
theorem qualify_eq_ok_iff (hBinds : List.Forall₂ c.Binds declarations scope)
    (hNames : List.Forall₂ c.Names ns names) :
    (∃ qualified, qualify c declarations ns = .ok qualified) ↔ ∀ name ∈ names, prefixOf name ∈ scope.map Prod.fst := by
  induction hNames with
  | nil => exact iff_of_true ⟨[], rfl⟩ (fun _ h => (List.not_mem_nil h).elim)
  | @cons n name ns names hName hRest ih =>
    rw [List.forall_mem_cons, ← ih, ← lookup_isSome_of_binds hBinds hName, qualify_cons]
    cases lookup c declarations n <;> cases qualify c declarations ns <;> simp

theorem resolved_of_qualify {qualified : List (PrefixedName × Declaration)}
    (hBinds : List.Forall₂ c.Binds declarations scope) (hNames : List.Forall₂ c.Names ns names)
    (hOk : qualify c declarations ns = .ok qualified) : List.Forall₂ (Resolved c scope) qualified names := by
  induction hNames generalizing qualified with
  | nil =>
    cases hOk
    exact .nil
  | @cons n name ns names hName hRest ih =>
    have hFound := lookup_of_binds hBinds hName
    rw [qualify_cons] at hOk
    cases hLookup : lookup c declarations n with
    | none =>
      rw [hLookup] at hOk
      cases hOk
    | some d =>
      cases hOthers : qualify c declarations ns with
      | error fault =>
        rw [hLookup, hOthers] at hOk
        cases hOk
      | ok others =>
        rw [hLookup, hOthers] at hOk
        cases hOk
        refine .cons ⟨hName, ?_⟩ (ih hOthers)
        rw [hLookup] at hFound
        generalize hUri : scope.lookup (prefixOf name) = found at hFound
        cases hFound with
        | some hValue =>
          obtain ⟨hCovers, resolved, hResolves⟩ := hValue
          exact ⟨_, resolved, rfl, hResolves, hCovers⟩

section
variable {first : PrefixedName × Declaration} {others : List (PrefixedName × Declaration)}

theorem checkApart_eq_ok_iff (hFirst : Resolved c scope first name)
    (hOthers : List.Forall₂ (Resolved c scope) others names) :
    checkApart c first others = .ok () ↔ ∀ other ∈ names, Apart scope name other := by
  induction hOthers with
  | nil => exact iff_of_true rfl (fun _ h => (List.not_mem_nil h).elim)
  | @cons second other others names hSecond hRest ih =>
    obtain ⟨uri, resolved, hUri, hResolves, hCovers⟩ := hFirst.declared
    obtain ⟨uri', resolved', hUri', hResolves', hCovers'⟩ := hSecond.declared
    have hSame := Cursor.sameText_eq hFirst.names.trailing hSecond.names.trailing
    have hEqual := Cursor.resolvedEq_of_resolves hResolves hResolves' hCovers.reads hCovers'.reads
    have hApart : Apart scope name other ↔ (localOf name = localOf other → resolved ≠ resolved') := by
      refine imp_congr_right fun _ => ?_
      constructor
      · rintro h rfl
        exact h uri uri' resolved hUri hUri' ⟨hResolves, hResolves'⟩
      · rintro h u u' text hu hu' ⟨hText, hText'⟩
        cases hUri.symm.trans hu
        cases hUri'.symm.trans hu'
        exact h ((hResolves.unique hText).trans (hText'.unique hResolves'))
    have hLength : first.2.uriLength = c.encoding.size uri := hCovers.length_eq
    have hLength' : second.2.uriLength = c.encoding.size uri' := hCovers'.length_eq
    simp only at hSame hEqual
    rw [List.forall_mem_cons, hApart, ← ih, Overlay.checkApart_cons, hSame, hLength, hLength', hEqual]
    by_cases hLocal : localOf name = localOf other
    · by_cases hText : resolved = resolved'
      · simp only [hLocal, hText, decide_true, if_true]
        exact iff_of_false (fun h => by cases h) (fun h => h.1 trivial rfl)
      · simp only [hLocal, hText, decide_true, decide_false, if_true]
        exact ⟨fun h => ⟨fun _ => hText, h⟩, fun h => h.2⟩
    · simp [hLocal]

theorem checkDistinct_eq_ok_iff (hOthers : List.Forall₂ (Resolved c scope) others names) :
    checkDistinct c others = .ok () ↔ names.Pairwise (Apart scope) := by
  induction hOthers with
  | nil => exact iff_of_true rfl .nil
  | @cons first name others names hFirst hRest ih =>
    rw [List.pairwise_cons, ← ih, ← checkApart_eq_ok_iff hFirst hRest, Overlay.checkDistinct_cons]
    cases checkApart c first others with
    | error fault => exact iff_of_false (fun h => by cases h) (fun h => by cases h.1)
    | ok u => exact (and_iff_right rfl).symm

end

theorem checkAttributes_eq_ok_iff (hBinds : List.Forall₂ c.Binds declarations scope)
    (hNames : List.Forall₂ c.Names ns names) : checkAttributes c declarations ns = .ok () ↔
      (∀ name ∈ names, prefixOf name ∈ scope.map Prod.fst) ∧ names.Pairwise (Apart scope) := by
  rw [← qualify_eq_ok_iff hBinds hNames, Overlay.checkAttributes_eq]
  cases hOk : qualify c declarations ns with
  | error fault => exact iff_of_false (fun h => by cases h) (fun h => by cases h.1.choose_spec)
  | ok qualified =>
    rw [← checkDistinct_eq_ok_iff (resolved_of_qualify hBinds hNames hOk), and_iff_right ⟨qualified, rfl⟩]
    rfl

theorem checkElement_eq_ok_iff (hBinds : List.Forall₂ c.Binds declarations scope) (hName : c.Names n name) :
    checkElement c declarations n = .ok () ↔
      prefixOf name = CodePoint.ofText "xml" ∨ prefixOf name ∈ scope.map Prod.fst := by
  have hSpells := @Cursor.spells_of_readsAt c _ _ (CodePoint.ofText "xml") hName.leading.reads
  have hLength : n.prefixLength = c.encoding.size (prefixOf name) := hName.leading.length_eq
  rw [← lookup_isSome_of_binds hBinds hName, Overlay.checkElement_eq, hLength, hSpells]
  change (if _ then _ else _) = _ ↔ _
  by_cases hFound : (decide (prefixOf name = CodePoint.ofText "xml") || (lookup c declarations n).isSome) = true
  · rw [if_pos hFound]
    simpa using hFound
  · rw [if_neg hFound]
    simpa using hFound

namespace Scopes
variable {s s' : Scopes} {outer : List Environment} {element : Chars} {u : Unit}

/-- Between tags: the environments of the open elements, the innermost first. Scopes of elements that
have ended may lie above theirs until the next tag. -/
def Between (c : Cursor) (s : Scopes) (outer : List Environment) : Prop :=
  ∃ left kept, s.opened = left ++ kept ∧ List.Forall₂ (List.Forall₂ c.Binds) kept outer ∧
    (left = [] → s.inForce = kept.headD [])

/-- Inside the start tag of `element`: what it declares so far counts already, and `names` are those of
its attributes that are yet to be qualified. -/
structure Inside (c : Cursor) (s : Scopes) (outer : List Environment) (scope : Environment) (element : Chars)
    (names : List Chars) : Prop where
  opened : List.Forall₂ (List.Forall₂ c.Binds) s.opened outer
  inForce : List.Forall₂ c.Binds s.inForce scope
  attributes : List.Forall₂ c.Names s.attributes.toList names
  element : if prefixOf element = [] then s.element = none else ∃ n, s.element = some n ∧ c.Names n element

theorem enter_of_lt {n? : Option PrefixedName} {depth : Nat} (hDepth : depth < s.opened.length) :
    s.enter depth n? = ⟨(s.opened.drop (s.opened.length - depth)).headD [],
      s.opened.drop (s.opened.length - depth), none, #[], n?⟩ :=
  if_pos hDepth

theorem enter_of_le {n? : Option PrefixedName} {depth : Nat} (hDepth : s.opened.length ≤ depth) :
    s.enter depth n? = ⟨s.inForce, s.opened, none, #[], n?⟩ :=
  if_neg (Nat.not_lt.mpr hDepth)

/-- Whatever has ended is forgotten when the next tag begins. -/
theorem Between.enter {n? : Option PrefixedName} (hBetween : Between c s outer)
    (hElement : if prefixOf element = [] then n? = none else ∃ n, n? = some n ∧ c.Names n element) :
    Inside c (s.enter outer.length n?) outer (outer.headD []) element [] := by
  obtain ⟨left, kept, hOpened, hKept, hInForce⟩ := hBetween
  have hLength : kept.length = outer.length := hKept.length_eq
  have hHead : List.Forall₂ c.Binds (kept.headD []) (outer.headD []) := by
    cases hKept with
    | nil => exact .nil
    | cons hFirst _ => exact hFirst
  by_cases hLeft : left = []
  · subst hLeft
    rw [enter_of_le (by rw [hOpened, List.nil_append, hLength]), hInForce rfl, hOpened]
    exact ⟨hKept, hHead, .nil, hElement⟩
  · have hPos := List.length_pos_iff.mpr hLeft
    have hDepth : outer.length < s.opened.length := by
      rw [hOpened, List.length_append]
      omega
    have hDrop : s.opened.drop (s.opened.length - outer.length) = kept := by
      rw [hOpened, List.length_append, ← hLength, Nat.add_sub_cancel, List.drop_left]
    rw [enter_of_lt hDepth, hDrop]
    exact ⟨hKept, hHead, .nil, hElement⟩

/-- An end tag leaves the scope of its element, though not at once. -/
theorem Between.leave {scope : Environment} (hBetween : Between c s (scope :: outer)) : Between c s outer := by
  obtain ⟨left, kept, hOpened, hKept, -⟩ := hBetween
  obtain ⟨first, rest, -, hRest, rfl⟩ := List.forall₂_cons_right_iff.mp hKept
  refine ⟨left ++ [first], rest, by simp [hOpened], hRest, ?_⟩
  intro h
  cases left <;> cases h

theorem between_empty : Between c {} [] :=
  ⟨[], [], rfl, .nil, fun _ => rfl⟩

def closed (s : Scopes) : Scopes :=
  { s with opened := s.inForce :: s.opened, attributes := #[], element := none }

theorem Inside.between (hInside : Inside c s outer scope element names) :
    Between c s.closed (scope :: outer) :=
  ⟨[], _, rfl, .cons hInside.inForce hInside.opened, fun _ => rfl⟩

/-- A start tag closes just if its names are qualified. -/
theorem Inside.close_eq_ok_iff (hInside : Inside c s outer scope element names) :
    Scopes.close c s = .ok u s' ↔ Closes scope element names ∧ s' = s.closed := by
  have hAttributes := checkAttributes_eq_ok_iff hInside.inForce hInside.attributes
  rw [Closes, ← and_assoc, ← hAttributes, Scopes.close]
  cases hCheck : checkAttributes c s.inForce s.attributes.toList with
  | error fault => simp
  | ok v =>
    rw [and_iff_right rfl]
    have hElement := hInside.element
    by_cases hPrefix : prefixOf element = []
    · rw [if_pos hPrefix] at hElement
      simp only [hElement, EStateM.Result.ok.injEq, InScope, hPrefix, true_or, true_and]
      exact eq_comm
    · rw [if_neg hPrefix] at hElement
      obtain ⟨n, hName, hNames⟩ := hElement
      have hScope := checkElement_eq_ok_iff hInside.inForce hNames
      rw [InScope, or_iff_right hPrefix, ← hScope]
      simp only [hName]
      cases checkElement c s.inForce n with
      | error fault => simp
      | ok v =>
        simp only [EStateM.Result.ok.injEq, true_and]
        exact eq_comm

end Scopes
end Namespace
end XmlIndex
