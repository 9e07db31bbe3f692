import XmlIndex.Proofs.Index.Levels
import XmlIndex.Proofs.Lexer.Transcripts
import XmlIndex.Proofs.Token.Shape

/-! # The elements of a token stream

Of the start tags a cache is only told the depth and the place. Elements come in the order of the document,
each at most one level deeper than the one before it; this stays so when deeper elements are left out.
-/
namespace XmlIndex
set_option autoImplicit false

namespace Token

def element? (t : Token) (place : Nat) : Option Recorded :=
  if t.kind = .startTag then some ⟨t.depth.toNat, place⟩ else none

def elementsFrom (place : Nat) (tokens : List Token) : List Recorded :=
  (tokens.zipIdx place).filterMap fun placed => placed.1.element? placed.2

def covered (levels : CacheLevels) (elements : List Recorded) : List Recorded :=
  elements.filter fun e => 1 ≤ e.depth ∧ e.depth ≤ levels.count

variable {tokens rest : List Token} {t : Token} {place depth : Nat} {levels : CacheLevels} {e : Recorded}

theorem element?_eq_some_iff : t.element? place = some e ↔ t.kind = .startTag ∧ e = ⟨t.depth.toNat, place⟩ := by
  unfold element?
  split <;> simp_all [eq_comm]

theorem element?_eq_none_iff : t.element? place = none ↔ t.kind ≠ .startTag := by
  unfold element?
  split <;> simp_all

theorem elementsFrom_append :
    elementsFrom place (tokens ++ rest) = elementsFrom place tokens ++ elementsFrom (place + tokens.length) rest := by
  rw [elementsFrom, List.zipIdx_append, List.filterMap_append]
  rfl

theorem elementsFrom_cons :
    elementsFrom place (t :: rest) = (t.element? place).toList ++ elementsFrom (place + 1) rest := by
  cases hElement : t.element? place <;> simp [elementsFrom, List.zipIdx_cons, hElement]

theorem elementsFrom_append_singleton :
    elementsFrom 0 (tokens ++ [t]) = elementsFrom 0 tokens ++ (t.element? tokens.length).toList := by
  rw [elementsFrom_append, elementsFrom_cons, Nat.zero_add]
  simp [elementsFrom]

theorem mem_elementsFrom : e ∈ elementsFrom 0 tokens ↔
    ∃ t, tokens[e.token]? = some t ∧ t.kind = .startTag ∧ t.depth.toNat = e.depth := by
  simp only [elementsFrom, List.mem_filterMap, Prod.exists, List.mem_zipIdx_iff_getElem?, element?_eq_some_iff]
  constructor
  · rintro ⟨t, place, hToken, hStart, rfl⟩
    exact ⟨t, hToken, hStart, rfl⟩
  · rintro ⟨t, hToken, hStart, hDepth⟩
    exact ⟨t, e.token, hToken, hStart, by rw [hDepth]⟩

theorem lt_length_of_mem_elementsFrom (hMem : e ∈ elementsFrom 0 tokens) : e.token < tokens.length := by
  obtain ⟨t, hToken, -⟩ := mem_elementsFrom.mp hMem
  exact (List.getElem?_eq_some_iff.mp hToken).1

theorem pairwise_elementsFrom : (elementsFrom 0 tokens).Pairwise fun e f => e.token < f.token := by
  induction tokens using List.reverseRecOn with
  | nil => exact .nil
  | append_singleton tokens t ih =>
    rw [elementsFrom_append_singleton]
    refine List.pairwise_append.mpr ⟨ih, ?_, fun e he f hf => ?_⟩
    · cases t.element? tokens.length <;> simp
    · obtain ⟨-, rfl⟩ := element?_eq_some_iff.mp (Option.mem_toList.mp hf)
      exact lt_length_of_mem_elementsFrom he

/-- The element that comes last is that of the latest start tag. -/
theorem exists_latest (hLast : (elementsFrom 0 tokens).getLast? = some e) :
    ∃ u, Outline.IsLatest tokens u ∧ u.depth.toNat = e.depth := by
  induction tokens using List.reverseRecOn with
  | nil => cases hLast
  | append_singleton tokens t ih =>
    rw [elementsFrom_append_singleton] at hLast
    cases hElement : t.element? tokens.length with
    | none =>
      rw [hElement, Option.toList_none, List.append_nil] at hLast
      obtain ⟨u, hLatest, hDepth⟩ := ih hLast
      exact ⟨u, hLatest.concat (element?_eq_none_iff.mp hElement), hDepth⟩
    | some last =>
      obtain ⟨hStart, rfl⟩ := element?_eq_some_iff.mp hElement
      rw [hElement, Option.toList_some, List.getLast?_concat] at hLast
      cases hLast
      exact ⟨t, Outline.isLatest_concat hStart, rfl⟩

end Token

namespace Draft
open Token LocationCache
variable {levels : CacheLevels} {tokens : List Token} {d : Draft} {t : Token}

theorem levels_recordAll {state : LocationCache × Option Recorded} {elements : List Recorded} :
    (recordAll state elements).1.levels = state.1.levels := by
  induction elements generalizing state with
  | nil => rfl
  | cons e rest ih =>
    rw [recordAll, List.foldl_cons]
    exact ih.trans levels_record

theorem state_rewrite : ((d.rewrite t).cache, (d.rewrite t).waiting) =
    if t.kind = .startTag ∧ 0 < t.depth then d.cache.record d.waiting ⟨t.depth.toNat, d.tokens.size⟩
    else (d.cache, d.waiting) := by
  unfold rewrite
  by_cases hStart : t.kind = .startTag
  · rw [if_pos hStart, writeElement, recordElement]
    by_cases hDeep : 0 < t.depth
    · rw [if_neg (by omega), if_pos hDeep, if_pos ⟨hStart, hDeep⟩]
      rfl
    · have hOther : ¬(t.kind = .startTag ∧ 0 < t.depth) := fun h => hDeep h.2
      rw [if_neg hDeep, if_neg hOther]
      split <;> rfl
  · rw [if_neg hStart, if_neg fun h => hStart h.1]
    rfl

/-- Elements that the cache does not cover are told to it for nothing. -/
theorem recordAll_ofTokens :
    ((ofTokens levels tokens).cache, (ofTokens levels tokens).waiting) =
      recordAll (.empty levels, none) (covered levels (elementsFrom 0 tokens)) := by
  induction tokens using List.reverseRecOn with
  | nil => rfl
  | append_singleton tokens t ih =>
    have hLevels : (ofTokens levels tokens).cache.levels = levels.count := by
      rw [congrArg (·.1.levels) ih, levels_recordAll, levels_empty]
    rw [ofTokens_append_singleton, state_rewrite, elementsFrom_append_singleton, covered, List.filter_append,
      ← covered, recordAll_append, ← ih, size_ofTokens]
    by_cases hDeep : t.kind = .startTag ∧ 0 < t.depth
    · rw [if_pos hDeep, element?_eq_some_iff.mpr ⟨hDeep.1, rfl⟩]
      by_cases hCovered : t.depth.toNat ≤ levels.count
      · have hKept : 1 ≤ t.depth.toNat ∧ t.depth.toNat ≤ levels.count := ⟨by omega, hCovered⟩
        simp [hKept, recordAll]
      · simp [hCovered, LocationCache.record, hLevels, Nat.lt_of_not_le hCovered, recordAll]
    · rw [if_neg hDeep]
      cases hElement : t.element? tokens.length with
      | none => rfl
      | some e =>
        obtain ⟨hStart, rfl⟩ := element?_eq_some_iff.mp hElement
        have hOutside : t.depth.toNat = 0 := by
          have hFlat : ¬0 < t.depth := fun h => hDeep ⟨hStart, h⟩
          omega
        simp [hOutside, recordAll]

theorem cache_finish_ofTokens : (ofTokens levels tokens).finish.cache =
    .ofElements levels (covered levels (elementsFrom 0 tokens)) := by
  rw [ofElements, ← recordAll_ofTokens]
  rfl

end Draft

structure Token.Alike (t t' : Token) : Prop where
  kind : t'.kind = t.kind
  depth : t'.depth = t.depth

namespace Draft
variable {d d' : Draft} {t t' : Token} {tokens tokens' : List Token} {levels : CacheLevels}

structure Alike (d d' : Draft) : Prop where
  size : d'.tokens.size = d.tokens.size
  cache : d'.cache = d.cache
  waiting : d'.waiting = d.waiting
  root : d'.root = d.root

theorem Alike.rewrite (hAlike : d.Alike d') (hToken : t.Alike t') : (d.rewrite t).Alike (d'.rewrite t') := by
  have hState : ((d'.rewrite t').cache, (d'.rewrite t').waiting) = ((d.rewrite t).cache, (d.rewrite t).waiting) := by
    rw [state_rewrite, state_rewrite, hToken.kind, hToken.depth, hAlike.cache, hAlike.waiting, hAlike.size]
  refine ⟨?_, (Prod.mk.inj hState).1, (Prod.mk.inj hState).2, ?_⟩
  · rw [← Array.length_toList, ← Array.length_toList, toList_rewrite, toList_rewrite, List.length_append,
      List.length_append, Array.length_toList, Array.length_toList, hAlike.size]
    rfl
  · rw [root_rewrite, root_rewrite, hToken.kind, hToken.depth, hAlike.size, hAlike.root]

theorem alike_ofTokens (hTokens : List.Forall₂ Token.Alike tokens tokens') :
    (ofTokens levels tokens).Alike (ofTokens levels tokens') := by
  suffices hFold : ∀ d d' : Draft, d.Alike d' → (tokens.foldl Draft.rewrite d).Alike (tokens'.foldl Draft.rewrite d') from
    hFold _ _ ⟨rfl, rfl, rfl, rfl⟩
  induction hTokens with
  | nil => exact fun _ _ hAlike => hAlike
  | cons hToken _ ih => exact fun _ _ hAlike => ih _ _ (hAlike.rewrite hToken)

end Draft

theorem Token.deepest_alike {tokens tokens' : List Token} (hTokens : List.Forall₂ Token.Alike tokens tokens') :
    deepest tokens' = deepest tokens := by
  unfold deepest
  generalize 0 = depth
  induction hTokens generalizing depth with
  | nil => rfl
  | cons hToken _ ih =>
    rw [List.foldl_cons, List.foldl_cons, hToken.kind, hToken.depth]
    exact ih _

/-- When elements deeper than a bound are left out, those after them still follow: to get deeper, they passed
the bound. -/
theorem Recorded.isChain_filter {first first' : Recorded} {elements : List Recorded} {bound : Nat}
    (hChain : (first :: elements).IsChain Follows) (hFirst : min first.depth bound ≤ first'.depth) :
    (first' :: elements.filter (·.depth ≤ bound)).IsChain Follows := by
  induction elements generalizing first first' with
  | nil => exact List.isChain_singleton _
  | cons e rest ih =>
    obtain ⟨hFollows, hRest⟩ := List.isChain_cons_cons.mp hChain
    unfold Follows at hFollows
    by_cases hKept : e.depth ≤ bound
    · rw [List.filter_cons_of_pos (by simpa using hKept)]
      refine List.isChain_cons_cons.mpr ⟨?_, ih hRest (Nat.min_le_left _ _)⟩
      unfold Follows
      omega
    · rw [List.filter_cons_of_neg (by simpa using hKept)]
      exact ih hRest (by omega)

namespace Outlined
open Token
variable {tokens : List Token} {levels : CacheLevels} (hOutlined : Outlined tokens)
include hOutlined

/-- By induction on what has come so far: each element is at most one level deeper than the one before it. -/
theorem isChain_elementsFrom : (elementsFrom 0 tokens).IsChain Recorded.Follows := by
  suffices hPrefix : ∀ before after, tokens = before ++ after →
      (elementsFrom 0 before).IsChain Recorded.Follows from hPrefix tokens [] (List.append_nil _).symm
  intro before
  induction before using List.reverseRecOn with
  | nil => exact fun _ _ => List.isChain_nil
  | append_singleton before t ih =>
    intro after hSplit
    have hHere : tokens = before ++ t :: after := by simp [hSplit]
    rw [elementsFrom_append_singleton, List.isChain_append]
    refine ⟨ih _ hHere, ?_, fun e he f hf => ?_⟩
    · cases t.element? before.length <;> simp
    · obtain ⟨hStart, rfl⟩ := element?_eq_some_iff.mp (Option.mem_toList.mp (List.mem_of_head? hf))
      obtain ⟨u, hLatest, hDepth⟩ := exists_latest he
      have hStep := ((hOutlined.startTag hHere hStart).2.2 u hLatest).2
      change t.depth.toNat ≤ e.depth + 1
      omega

/-- The root comes first, and no other element is as high. -/
theorem exists_elementsFrom : ∃ root others, elementsFrom 0 tokens = root :: others ∧ root.depth = 0 ∧
    ∀ e ∈ others, 1 ≤ e.depth := by
  obtain ⟨before, root, after, rfl, hStart, hDepth, hBefore, hAfter⟩ := hOutlined.exists_root
  have hNone : elementsFrom 0 before = [] := by
    rw [List.eq_nil_iff_forall_not_mem]
    intro e he
    obtain ⟨t, hToken, hTag, -⟩ := mem_elementsFrom.mp he
    exact hBefore t (List.mem_of_getElem? hToken) hTag
  refine ⟨⟨root.depth.toNat, before.length⟩, elementsFrom (before.length + 1) after, ?_, by simp [hDepth], ?_⟩
  · rw [elementsFrom_append, hNone, elementsFrom_cons, Nat.zero_add, element?_eq_some_iff.mpr ⟨hStart, rfl⟩]
    rfl
  · intro e he
    simp only [elementsFrom, List.mem_filterMap, Prod.exists, element?_eq_some_iff] at he
    obtain ⟨t, place, hMem, hTag, rfl⟩ := he
    have hDeep := hAfter t (List.fst_mem_of_mem_zipIdx hMem) hTag
    change 1 ≤ t.depth.toNat
    omega

theorem isChain_covered : (covered levels (elementsFrom 0 tokens)).IsChain Recorded.Follows := by
  obtain ⟨root, others, hElements, hRoot, hOthers⟩ := hOutlined.exists_elementsFrom
  have hChain := hOutlined.isChain_elementsFrom
  have hSame : covered levels (elementsFrom 0 tokens) = others.filter (·.depth ≤ levels.count) := by
    rw [hElements, covered, List.filter_cons_of_neg (by simp [hRoot])]
    refine List.filter_congr fun e he => ?_
    simp [hOthers e he]
  rw [hElements] at hChain
  rw [hSame]
  exact (Recorded.isChain_filter hChain (Nat.min_le_left _ _)).tail

end Outlined
end XmlIndex
