import XmlIndex.Proofs.Translation.Run
import XmlIndex.Proofs.Variation.Legibility

/-! # What namespaces add

With namespaces a lexer does more with each tag: it opens scopes, notes names and values in them, and checks
them. None of this moves the cursor or writes a token, and it fails for names in namespaces alone.
-/
namespace XmlIndex
set_option autoImplicit false
open Grammar

namespace Lex

/-- With namespaces the action touches the scopes alone and keeps them legible, or it fails for its names. -/
def Confined {α : Type} (c : Cursor) (R : α → Prop) (action : Lex α) : Prop :=
  ∀ s, c.Moved s.cursor → s.namespaces = true → s.scopes.Legible c →
    match action s with
    | .ok a s' => R a ∧ ∃ scopes, s' = s.withScopes scopes ∧ scopes.Legible c
    | .error fault _ => fault.IsNamespace

section
variable {α β : Type} {c : Cursor} {P : α → Prop} {R : β → Prop} {cause : SyntaxFault}

theorem confined_pure {a : α} (hResult : P a) : Confined c P (pure a) :=
  fun s _ _ hLegible => ⟨hResult, s.scopes, rfl, hLegible⟩

theorem Confined.bind {action : Lex α} {next : α → Lex β} (hAction : Confined c P action)
    (hNext : ∀ a, P a → Confined c R (next a)) : Confined c R (action >>= next) := by
  intro s hMoved hOn hLegible
  have hFirst := hAction s hMoved hOn hLegible
  cases hRun : action s with
  | error fault s' =>
    rw [Lex.bind_of_error hRun]
    rw [hRun] at hFirst
    exact hFirst
  | ok a s' =>
    rw [bind_of_ok hRun]
    rw [hRun] at hFirst
    obtain ⟨hResult, scopes, rfl, hLater⟩ := hFirst
    exact hNext a hResult (s.withScopes scopes) hMoved hOn hLater

theorem Confined.ite {condition : Prop} [Decidable condition] {yes no : Lex α}
    (hYes : condition → Confined c P yes) (hNo : ¬condition → Confined c P no) :
    Confined c P (if condition then yes else no) := by
  split
  · exact hYes ‹_›
  · exact hNo ‹_›

theorem confined_throw (place : Nat) (hCause : cause ∈ SyntaxFault.ofNamespaces) :
    Confined c P (throw (.structural cause (some place)) : Lex α) :=
  fun _ _ _ _ => Fault.isNamespace_of_mem hCause

theorem confined_requireAt (place : Nat) (condition : Bool) (hCause : cause ∈ SyntaxFault.ofNamespaces) :
    Confined c (fun _ => True) (requireAt place condition cause) :=
  .ite (fun _ => confined_pure trivial) fun _ => confined_throw place hCause

theorem confined_look {view : Lexer → α} (hView : ∀ s, c.Moved s.cursor → s.namespaces = true → P (view s)) :
    Confined c P (look view) :=
  fun s hMoved hOn hLegible => ⟨hView s hMoved hOn, s.scopes, rfl, hLegible⟩

theorem confined_namespacesOn : Confined c (· = true) namespacesOn :=
  confined_look fun _ _ hOn => hOn

theorem confined_unitSize : Confined c (· = c.encoding.unitSize) unitSize :=
  confined_look fun _ hMoved _ => congrArg Encoding.unitSize hMoved.encoding_eq

theorem confined_scopes {change : Lexer → Namespace.Scopes}
    (hChange : ∀ s : Lexer, s.scopes.Legible c → (change s).Legible c) :
    Confined c (fun _ => True) (update fun s => { s with scopes := change s }) :=
  fun s _ _ hLegible => ⟨trivial, change s, rfl, hChange s hLegible⟩

theorem confined_spells {span : Span} {text : Chars} (hCovers : c.Covers span text) (expected : String) :
    Confined c (fun _ => True) (spells span expected) := by
  intro s hMoved _ hLegible
  rw [spells_of_covers expected (hCovers.congr hMoved.doc_eq hMoved.stop_eq hMoved.encoding_eq)]
  exact ⟨trivial, s.scopes, rfl, hLegible⟩

theorem confined_checkReserved (place : Nat) (reserved : Namespace.Reserved) :
    Confined c (fun _ => True) (checkReserved place reserved) := by
  cases reserved with
  | none => exact confined_pure trivial
  | xml => exact confined_throw place (by decide)
  | xmlns => exact confined_throw place (by decide)

end

section
variable {c : Cursor} {place : Nat} {own : Chars} (hReads : c.ReadsAt place own)
include hReads

theorem confined_checkElementPrefix :
    Confined c (fun _ => True) (checkElementPrefix (Scan.nameAt c.encoding place own)) :=
  confined_namespacesOn.bind fun _ _ =>
    .ite
      (fun _ => (confined_spells (Scan.covers_prefixOf hReads) _).bind fun _ _ => confined_requireAt _ _ (by decide))
      fun _ => confined_pure trivial

theorem confined_enterScope : Confined c (fun _ => True) (enterScope (Scan.nameAt c.encoding place own)) := by
  refine confined_namespacesOn.bind fun on hOn => .ite (fun _ => ?_) fun _ => confined_pure trivial
  refine confined_unitSize.bind fun size hSize => confined_scopes fun s hLegible => hLegible.enter _ ?_
  subst hSize
  intro n hn
  split at hn
  · cases hn
  · rename_i hPrefix
    cases hn
    have hColon : CodePoint.colon ∈ own :=
      colon_mem_of_prefixOf (mt Encoding.size_eq_zero_iff.mpr hPrefix)
    exact ⟨own, Scan.names_toPrefixed hReads hColon⟩

theorem confined_settleRole {role : AttributeRole} (hColon : role = .namespacePrefix → CodePoint.colon ∈ own) :
    Confined c (fun settled => settled.declares = role.declares)
      (settleRole role (Scan.nameAt c.encoding place own)) := by
  refine confined_namespacesOn.bind fun on _ => .ite (fun hPrefix => ?_) fun _ => confined_pure rfl
  rw [Bool.and_eq_true, decide_eq_true_eq] at hPrefix
  obtain ⟨rfl, -⟩ := hPrefix
  refine confined_unitSize.bind fun size hSize => ?_
  subst hSize
  have hLocal := Scan.covers_localOf hReads (hColon rfl)
  exact (confined_spells hLocal _).bind fun _ _ => (confined_requireAt _ _ (by decide)).bind fun _ _ =>
    (confined_spells hLocal _).bind fun _ _ => .ite (fun _ => confined_pure rfl) fun _ => confined_pure rfl

theorem confined_noteAttribute (role : AttributeRole) :
    Confined c (fun _ => True) (noteAttribute role (Scan.nameAt c.encoding place own)) := by
  refine confined_namespacesOn.bind fun on _ => .ite (fun hPrefix => ?_) fun _ => confined_pure trivial
  rw [Bool.and_eq_true, bne_iff_ne] at hPrefix
  have hColon : CodePoint.colon ∈ own := colon_mem_of_prefixOf (mt Encoding.size_eq_zero_iff.mpr hPrefix.2)
  refine confined_unitSize.bind fun size hSize => ?_
  subst hSize
  cases role with
  | namespacePrefix => exact confined_scopes fun s hLegible => hLegible.declare ⟨_, Scan.covers_localOf hReads hColon⟩
  | plain =>
    exact (confined_spells (Scan.covers_prefixOf hReads) _).bind fun _ _ => .ite (fun _ => confined_pure trivial)
      fun _ => confined_scopes fun s hLegible => hLegible.addAttribute ⟨own, Scan.names_toPrefixed hReads hColon⟩
  | defaultNamespace => exact confined_pure trivial
  | xmlPrefix => exact confined_pure trivial

end

theorem confined_bindValue {c : Cursor} {value : Span} {text resolved : Chars} (role : AttributeRole)
    (hCovers : c.Covers value text) (hResolves : Resolves text resolved) :
    Confined c (fun _ => True) (bindValue role value) := by
  have hReserved : Confined c (fun _ => True) (read (Scan.ask (Namespace.reserved value.offset value.length))) := by
    intro s hMoved _ hLegible
    have hThere := hCovers.congr hMoved.doc_eq hMoved.stop_eq hMoved.encoding_eq
    have hAnswer := Cursor.reserved_of_resolves hResolves hThere.reads
    rw [← hThere.length_eq] at hAnswer
    rw [read_ask_of_ok hAnswer]
    exact ⟨trivial, s.scopes, rfl, hLegible⟩
  refine confined_namespacesOn.bind fun on _ => .ite (fun _ => ?_) fun _ => confined_pure trivial
  refine (confined_requireAt _ _ (by decide)).bind fun _ _ => hReserved.bind fun reserved _ => ?_
  cases role with
  | plain => exact confined_checkReserved _ _
  | defaultNamespace => exact confined_checkReserved _ _
  | namespacePrefix =>
    exact (confined_scopes fun s hLegible => hLegible.bind hCovers ⟨resolved, hResolves⟩).bind fun _ _ =>
      confined_checkReserved _ _
  | xmlPrefix => exact confined_requireAt _ _ (by decide)

theorem confined_closeScope {c : Cursor} : Confined c (fun _ => True) closeScope := by
  intro s hMoved hOn hLegible
  unfold closeScope
  rw [if_pos hOn]
  have hThere : s.scopes.Legible s.cursor := hLegible.moved hMoved
  obtain hClosed | ⟨fault, scopes, hFailed, hFault⟩ := hThere.close_cases
  · rw [hClosed]
    exact ⟨trivial, s.scopes.closed, rfl, hLegible.closed⟩
  · rw [hFailed]
    exact hFault

end Lex
end XmlIndex
