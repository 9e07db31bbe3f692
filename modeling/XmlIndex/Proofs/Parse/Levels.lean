import Mathlib.Data.List.Sort
import XmlIndex.Proofs.Parse.Shape
import XmlIndex.Proofs.Token.Elements

/-! # The cache is the tree of elements

The levels of the cache list the start tags of their depths in the order of the document, and an entry is told
of a first child exactly if its element has one. Elements deeper than the cache goes make no difference.
-/
namespace XmlIndex
set_option autoImplicit false

namespace Token
variable {tokens : List Token} {depth place child slot : Nat} {levels : CacheLevels} {e : Recorded}

def IsElement (tokens : List Token) (depth place : Nat) : Prop :=
  ∃ t, tokens[place]? = some t ∧ t.kind = .startTag ∧ t.depth = (depth : Int)

instance : DecidablePred (IsElement tokens depth) := fun place =>
  match hToken : tokens[place]? with
  | none => isFalse fun ⟨_, hSome, _⟩ => nomatch hToken.symm.trans hSome
  | some t =>
    if hElement : t.kind = .startTag ∧ t.depth = (depth : Int) then isTrue ⟨t, hToken, hElement⟩
    else isFalse fun ⟨_, hSome, hOther⟩ => hElement (Option.some.inj (hToken.symm.trans hSome) ▸ hOther)

def elementsAt (tokens : List Token) (depth : Nat) : List Nat :=
  (List.range tokens.length).filter fun place => IsElement tokens depth place

/-- The first element one level deeper after another, before any that is as high as that one. -/
structure IsFirstChild (tokens : List Token) (depth place child : Nat) : Prop where
  after : place < child
  element : IsElement tokens (depth + 1) child
  first {between other : Nat} : place < between → between < child → IsElement tokens other between →
    depth + 1 < other

end Token

/-- The cache lists the elements of an index as far down as it goes. -/
structure Index.Leveled (x : Index) (levels : CacheLevels) : Prop where
  count : x.cache.levels = levels.count
  entries {depth : Nat} : 1 ≤ depth → depth < levels.count →
    (x.cache.entries depth).toList.map (·.token) = Token.elementsAt x.tokens.toList depth
  leaves : x.cache.leaves.toList = Token.elementsAt x.tokens.toList levels.count
  /-- The child is known by its place in the level below, be it one of entries or of leaves. -/
  firstChild {depth slot : Nat} {entry : CacheEntry} : 1 ≤ depth → depth < levels.count →
    entry ∈ x.cache.entries depth →
      (entry.firstChild = some slot ↔ ∃ child, Token.IsFirstChild x.tokens.toList depth entry.token child ∧
        (x.cache.tokensAt (depth + 1))[slot]? = some child)
  /-- The cache is that of the elements that it covers. -/
  covered : x.cache = .ofElements levels (Token.covered levels (Token.elementsFrom 0 x.tokens.toList))

namespace Recorded
variable {elements before after : List Recorded} {depth place slot : Nat}

/-- In a list of elements the first child is the next element, if that is deeper. -/
theorem firstChild_iff (hOrder : elements.Pairwise fun e f => e.token < f.token)
    (hChain : elements.IsChain Follows) (hSplit : elements = before ++ ⟨depth, place⟩ :: after) :
    (∃ child, (place < child ∧ ⟨depth + 1, child⟩ ∈ elements ∧
        ∀ f ∈ elements, place < f.token → f.token < child → depth + 1 < f.depth) ∧
      ((elements.filter (·.depth = depth + 1)).map (·.token))[slot]? = some child) ↔
      after.head?.any (·.depth = depth + 1) = true ∧ slot = (before.filter (·.depth = depth + 1)).length := by
  subst hSplit
  obtain ⟨-, hAfter, hAcross⟩ := List.pairwise_append.mp hOrder
  obtain ⟨hNext, hLater⟩ := List.pairwise_cons.mp hAfter
  have hBefore : ∀ f ∈ before, f.token < place := fun f hf => hAcross f hf _ List.mem_cons_self
  -- The child that comes next stands behind all of its level that come before.
  have hSlot {child : Nat} {rest : List Recorded} (hHead : after = ⟨depth + 1, child⟩ :: rest) :
      (((before ++ ⟨depth, place⟩ :: after).filter (·.depth = depth + 1)).map
        (·.token))[(before.filter (·.depth = depth + 1)).length]? = some child := by
    simp [hHead]
  constructor
  · rintro ⟨child, ⟨hAfterPlace, hMem, hFirst⟩, hPlace⟩
    have hChild : ⟨depth + 1, child⟩ ∈ after := by
      rcases List.mem_append.mp hMem with hMem | hMem
      · exact absurd (hBefore _ hMem) (Nat.not_lt.mpr (Nat.le_of_lt hAfterPlace))
      · rcases List.mem_cons.mp hMem with hSame | hMem
        · exact absurd (congrArg Recorded.depth hSame) (Nat.succ_ne_self depth)
        · exact hMem
    cases after with
    | nil => cases hChild
    | cons next rest =>
      have hHead : next = ⟨depth + 1, child⟩ := by
        rcases List.mem_cons.mp hChild with hSame | hRest
        · exact hSame.symm
        · have hBetween := hFirst next (by simp) (hNext next List.mem_cons_self)
            ((List.pairwise_cons.mp hLater).1 _ hRest)
          have hFollows := (List.isChain_append_cons_cons.mp hChain).2.1
          exact absurd hBetween (Nat.not_lt.mpr hFollows)
      have hThere := @hSlot child rest (by rw [hHead])
      have hNodup : (((before ++ ⟨depth, place⟩ :: next :: rest).filter (·.depth = depth + 1)).map
          (·.token)).Nodup :=
        List.Pairwise.imp Nat.ne_of_lt (List.pairwise_map.mpr (hOrder.filter _))
      refine ⟨by simp [hHead], ?_⟩
      exact (List.getElem?_inj (List.getElem?_eq_some_iff.mp hPlace).1 hNodup).mp (hPlace.trans hThere.symm)
  · rintro ⟨hHead, rfl⟩
    cases after with
    | nil => cases hHead
    | cons next rest =>
      obtain ⟨nextDepth, child⟩ := next
      obtain rfl : nextDepth = depth + 1 := by simpa using hHead
      refine ⟨child, ⟨hNext _ List.mem_cons_self, by simp, fun f hf hAfterPlace hBeforeChild => ?_⟩, hSlot rfl⟩
      -- Nothing stands between an element and the next.
      exfalso
      rcases List.mem_append.mp hf with hf | hf
      · exact Nat.lt_asymm hAfterPlace (hBefore f hf)
      · rcases List.mem_cons.mp hf with rfl | hf
        · exact Nat.lt_irrefl _ hAfterPlace
        · rcases List.mem_cons.mp hf with rfl | hf
          · exact Nat.lt_irrefl _ hBeforeChild
          · exact Nat.lt_asymm hBeforeChild ((List.pairwise_cons.mp hLater).1 f hf)

end Recorded

namespace Outlined
open Token
variable {tokens : List Token} {levels : CacheLevels} {depth place child : Nat}

theorem mem_covered_iff (hLeast : 1 ≤ depth) (hLevel : depth ≤ levels.count) :
    ⟨depth, place⟩ ∈ covered levels (elementsFrom 0 tokens) ↔ IsElement tokens depth place := by
  simp only [covered, List.mem_filter, mem_elementsFrom, hLeast, hLevel, and_self, decide_true, and_true]
  refine exists_congr fun t => and_congr_right fun _ => and_congr_right fun _ => ?_
  omega

theorem pairwise_covered : (covered levels (elementsFrom 0 tokens)).Pairwise fun e f => e.token < f.token :=
  pairwise_elementsFrom.filter _

/-- What a level lists. -/
theorem filter_covered (hLeast : 1 ≤ depth) (hLevel : depth ≤ levels.count) :
    ((covered levels (elementsFrom 0 tokens)).filter (·.depth = depth)).map (·.token) = elementsAt tokens depth := by
  refine List.Pairwise.eq_of_mem_iff (r := (· < ·)) (List.pairwise_map.mpr (pairwise_covered.filter _))
    (List.pairwise_lt_range.filter _) fun place => ?_
  rw [elementsAt, List.mem_filter, List.mem_range, decide_eq_true_eq, ← mem_covered_iff hLeast hLevel, List.mem_map]
  constructor
  · rintro ⟨⟨_, _⟩, hMem, rfl⟩
    obtain ⟨hCovered, hDepth⟩ := List.mem_filter.mp hMem
    obtain rfl := of_decide_eq_true hDepth
    exact ⟨lt_length_of_mem_elementsFrom (List.mem_of_mem_filter hCovered), hCovered⟩
  · rintro ⟨-, hMem⟩
    exact ⟨_, List.mem_filter.mpr ⟨hMem, decide_eq_true rfl⟩, rfl⟩

/-- For elements that a cache covers, its first child is found among them: what else there is lies deeper, or is
the root. -/
theorem isFirstChild_iff (hOutlined : Outlined tokens) (hLevel : depth < levels.count)
    (hElement : IsElement tokens depth place) : IsFirstChild tokens depth place child ↔
      place < child ∧ ⟨depth + 1, child⟩ ∈ covered levels (elementsFrom 0 tokens) ∧
        ∀ f ∈ covered levels (elementsFrom 0 tokens), place < f.token → f.token < child → depth + 1 < f.depth := by
  have hMem := @mem_covered_iff tokens levels (depth + 1) child (Nat.le_add_left 1 depth) hLevel
  constructor
  · rintro ⟨hAfter, hChild, hFirst⟩
    refine ⟨hAfter, hMem.mpr hChild, fun f hf hAfterPlace hBeforeChild => ?_⟩
    obtain ⟨hLeastThere, hLevelThere⟩ := of_decide_eq_true (List.mem_filter.mp hf).2
    exact hFirst hAfterPlace hBeforeChild ((mem_covered_iff hLeastThere hLevelThere).mp hf)
  · rintro ⟨hAfter, hChild, hFirst⟩
    refine ⟨hAfter, hMem.mp hChild, fun {between other} hAfterPlace hBeforeChild hBetween => ?_⟩
    by_cases hDeep : levels.count < other
    · omega
    · have hLeastThere : 1 ≤ other := by
        obtain ⟨root, others, hElements, hRoot, hOthers⟩ := hOutlined.exists_elementsFrom
        have hOrder := @pairwise_elementsFrom tokens
        rw [hElements, List.pairwise_cons] at hOrder
        have hOther {depth place : Nat} (hThere : IsElement tokens depth place) :
            ⟨depth, place⟩ = root ∨ ⟨depth, place⟩ ∈ others := by
          obtain ⟨t, hToken, hStart, hDepth⟩ := hThere
          have hThere : ⟨depth, place⟩ ∈ elementsFrom 0 tokens :=
            mem_elementsFrom.mpr ⟨t, hToken, hStart, by simp [hDepth]⟩
          rw [hElements] at hThere
          exact List.mem_cons.mp hThere
        rcases hOther hBetween with rfl | hThere
        · rcases hOther hElement with hSame | hHere
          · cases hSame
            exact absurd hAfterPlace (Nat.lt_irrefl _)
          · exact absurd hAfterPlace (Nat.lt_asymm (hOrder.1 _ hHere))
        · exact hOthers _ hThere
      exact hFirst _ ((mem_covered_iff hLeastThere (Nat.le_of_not_lt hDeep)).mpr hBetween) hAfterPlace hBeforeChild

end Outlined

section
open LocationCache
variable {options : Options} {namespaces : Bool} {doc : ByteArray} {offset length : Nat} {x : Index}

theorem covers_of_mem_covered {levels : CacheLevels} {elements : List Recorded} :
    ∀ e ∈ Token.covered levels elements, (empty levels).Covers e := by
  intro e he
  unfold Covers
  rw [levels_empty]
  exact of_decide_eq_true (List.mem_filter.mp he).2

theorem entries_empty {levels : CacheLevels} {depth : Nat} : (empty levels).entries depth = #[] := by
  rw [entries, empty, Array.getD_eq_getD_getElem?, Array.getElem?_replicate]
  split <;> rfl

theorem tokensAt_empty {levels : CacheLevels} {depth : Nat} : (empty levels).tokensAt depth = [] := by
  rw [tokensAt, entries_empty]
  split <;> rfl

variable {tokens : List Token} {levels : CacheLevels} {depth : Nat}

theorem Outlined.ofElements_eq (hOutlined : Outlined tokens) :
    ofElements levels (Token.covered levels (Token.elementsFrom 0 tokens)) =
      (empty levels).placeAll (Token.covered levels (Token.elementsFrom 0 tokens)) :=
  ofElements_eq_placeAll covers_of_mem_covered hOutlined.isChain_covered

theorem Outlined.tokensAt_ofElements (hOutlined : Outlined tokens) (hLeast : 1 ≤ depth)
    (hLevel : depth ≤ levels.count) :
    (ofElements levels (Token.covered levels (Token.elementsFrom 0 tokens))).tokensAt depth =
      Token.elementsAt tokens depth := by
  rw [hOutlined.ofElements_eq, tokensAt_placeAll covers_of_mem_covered hLeast, tokensAt_empty, List.nil_append,
    filter_covered hLeast hLevel]

theorem Outlined.firstChild_ofElements {slot : Nat} {entry : CacheEntry} (hOutlined : Outlined tokens)
    (hLeast : 1 ≤ depth) (hLevel : depth < levels.count)
    (hEntry : entry ∈ (ofElements levels (Token.covered levels (Token.elementsFrom 0 tokens))).entries depth) :
    entry.firstChild = some slot ↔ ∃ child, Token.IsFirstChild tokens depth entry.token child ∧
      (Token.elementsAt tokens (depth + 1))[slot]? = some child := by
  rw [hOutlined.ofElements_eq] at hEntry
  rcases mem_entries_placeAll covers_of_mem_covered hLeast (by rwa [levels_empty]) hEntry with
    hNone | ⟨before, after, hSplit, hChild⟩
  · rw [entries_empty] at hNone
    exact absurd hNone (Array.not_mem_empty _)
  · have hMem : ⟨depth, entry.token⟩ ∈ Token.covered levels (Token.elementsFrom 0 tokens) := by
      rw [hSplit]
      simp
    have hElement := (mem_covered_iff hLeast (Nat.le_of_lt hLevel)).mp hMem
    have hSize : (empty levels).levelSize (depth + 1) = 0 := by
      rw [← length_tokensAt, tokensAt_empty]
      rfl
    have hSlot := @Recorded.firstChild_iff _ _ _ _ _ slot pairwise_covered hOutlined.isChain_covered hSplit
    rw [filter_covered (Nat.le_add_left 1 depth) hLevel] at hSlot
    simp only [hOutlined.isFirstChild_iff hLevel hElement, hSlot, hChild, hSize, Nat.zero_add]
    split
    · rename_i hHead
      rw [Option.some_inj, eq_comm]
      exact (and_iff_right hHead).symm
    · rename_i hHead
      exact iff_of_false nofun fun h => hHead h.1

/-- The cache of a range that is parsed is the tree of its elements. -/
theorem leveled_of_parseRange (hOk : parseRange options namespaces doc offset length = .ok x) :
    x.Leveled (options.cacheDepth.levels length) := by
  have hOutlined := outlined_of_parseRange hOk
  have hCache := (told_of_parseRange hOk).1.trans Draft.cache_finish_ofTokens
  have hLevels : x.cache.levels = (options.cacheDepth.levels length).count := by
    rw [hCache, hOutlined.ofElements_eq, levels_placeAll, levels_empty]
  have hTokens {depth : Nat} (hLeast : 1 ≤ depth) (hLevel : depth ≤ (options.cacheDepth.levels length).count) :
      x.cache.tokensAt depth = Token.elementsAt x.tokens.toList depth := by
    conv => lhs; rw [hCache]
    exact hOutlined.tokensAt_ofElements hLeast hLevel
  exact
    { count := hLevels
      entries := by
        intro depth hLeast hLevel
        have hUpper : depth ≠ x.cache.levels := by omega
        rw [← hTokens hLeast (Nat.le_of_lt hLevel), tokensAt, if_neg hUpper]
      leaves := by
        have hLeast : 1 ≤ (options.cacheDepth.levels length).count := hLevels ▸ Nat.succ_pos _
        rw [← hTokens hLeast (Nat.le_refl _), tokensAt, if_pos hLevels.symm]
      firstChild := by
        intro depth slot entry hLeast hLevel hEntry
        rw [hTokens (Nat.le_add_left 1 depth) hLevel]
        rw [hCache] at hEntry
        exact hOutlined.firstChild_ofElements hLeast hLevel hEntry
      covered := hCache }

theorem leveled_of_parseRange_chapter :
    parseRange {} true chapter 1 36 = .ok chapterIndex ∧ chapterIndex.Leveled .three :=
  ⟨parseRange_chapter, leveled_of_parseRange parseRange_chapter⟩

end
end XmlIndex
