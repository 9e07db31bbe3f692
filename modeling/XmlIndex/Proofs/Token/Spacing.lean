import XmlIndex.Proofs.Token.Elements

/-! # Streams with more tokens

A stream may have more tokens than another, all of one sort, strewn in between. Its tokens then stand
further on than their counterparts. If no token that is added opens an element, both streams tell of the
same elements, and the caches differ in the places alone.
-/
namespace XmlIndex
set_option autoImplicit false

/-- The second stream has the tokens of the first, and between them others of a sort. -/
inductive Spaced (sort : Token → Prop) : List Token → List Token → Prop where
  | nil : Spaced sort [] []
  | same {tokens more : List Token} (t : Token) (hRest : Spaced sort tokens more) :
    Spaced sort (t :: tokens) (t :: more)
  | space {tokens more : List Token} {t : Token} (hSort : sort t) (hRest : Spaced sort tokens more) :
    Spaced sort tokens (t :: more)

namespace Spaced
variable {sort : Token → Prop} {tokens more tokens' more' : List Token} {t : Token}

theorem refl (tokens : List Token) : Spaced sort tokens tokens := by
  induction tokens with
  | nil => exact .nil
  | cons t tokens ih => exact .same t ih

theorem of_forall (hSort : ∀ t ∈ more, sort t) : Spaced sort [] more := by
  induction more with
  | nil => exact .nil
  | cons t more ih =>
    obtain ⟨hFirst, hRest⟩ := List.forall_mem_cons.mp hSort
    exact .space hFirst (ih hRest)

theorem append (hSpaced : Spaced sort tokens more) (hSpaced' : Spaced sort tokens' more') :
    Spaced sort (tokens ++ tokens') (more ++ more') := by
  induction hSpaced with
  | nil => exact hSpaced'
  | same t hRest ih => exact .same t ih
  | space hSort hRest ih => exact .space hSort ih

/-- Where the tokens of the first stream stand in the second: in the same order, and all others are of the
sort. What is selected of the second stream is what is selected of the first, if none of the sort is. -/
structure Places (sort : Token → Prop) (tokens more : List Token) (f : Nat → Nat) : Prop where
  strictMono : StrictMono f
  getElem?_eq : ∀ i < tokens.length, more[f i]? = tokens[i]?
  image_or : ∀ j t, more[j]? = some t → (∃ i < tokens.length, f i = j) ∨ sort t
  select : ∀ keep : Token → Bool, (∀ t, sort t → keep t = false) →
    more.zipIdx.filter (fun placed => keep placed.1) =
      (tokens.zipIdx.filter fun placed => keep placed.1).map fun placed => (placed.1, f placed.2)

theorem filter_zipIdx_cons {keep : Token → Bool} :
    (t :: tokens).zipIdx.filter (fun placed => keep placed.1) =
      (if keep t then [(t, 0)] else []) ++
        (tokens.zipIdx.filter fun placed => keep placed.1).map fun placed => (placed.1, placed.2 + 1) := by
  have hRest : tokens.zipIdx 1 = tokens.zipIdx.map fun placed => (placed.1, placed.2 + 1) := by
    rw [List.zipIdx_succ]
  rw [List.zipIdx_cons, Nat.zero_add, hRest, List.filter_cons, List.filter_map]
  split <;> rfl

/-- By induction on the streams: a token of both stands first in both, one of the sort moves the rest on. -/
theorem exists_places (hSpaced : Spaced sort tokens more) : ∃ f, Places sort tokens more f := by
  induction hSpaced with
  | nil => exact ⟨id, strictMono_id, fun _ h => absurd h (Nat.not_lt_zero _), fun _ _ => nofun, fun _ _ => rfl⟩
  | @same tokens more t hRest ih =>
    obtain ⟨f, hMono, hSame, hImage, hSelect⟩ := ih
    refine ⟨fun i => Nat.casesOn i 0 fun i => f i + 1, ?_, ?_, ?_, ?_⟩
    · refine strictMono_nat_of_lt_succ fun i => ?_
      cases i with
      | zero => exact Nat.succ_pos _
      | succ i => exact Nat.succ_lt_succ (hMono (Nat.lt_succ_self i))
    · intro i hi
      cases i with
      | zero => rfl
      | succ i => exact hSame i (Nat.lt_of_succ_lt_succ hi)
    · intro j u hu
      cases j with
      | zero => exact .inl ⟨0, Nat.succ_pos _, rfl⟩
      | succ j =>
        refine (hImage j u hu).imp_left ?_
        rintro ⟨i, hi, rfl⟩
        exact ⟨i + 1, Nat.succ_lt_succ hi, rfl⟩
    · intro keep hKeep
      rw [filter_zipIdx_cons, filter_zipIdx_cons, hSelect keep hKeep, List.map_append, List.map_map, List.map_map]
      congr 1
      split <;> rfl
  | @space tokens more t hSort hRest ih =>
    obtain ⟨f, hMono, hSame, hImage, hSelect⟩ := ih
    refine ⟨fun i => f i + 1, fun _ _ hLess => Nat.succ_lt_succ (hMono hLess), hSame, ?_, ?_⟩
    · intro j u hu
      cases j with
      | zero => exact .inr (Option.some.inj hu ▸ hSort)
      | succ j =>
        refine (hImage j u hu).imp_left ?_
        rintro ⟨i, hi, rfl⟩
        exact ⟨i, hi, rfl⟩
    · intro keep hKeep
      rw [filter_zipIdx_cons, hKeep t hSort, hSelect keep hKeep, List.map_map]
      rfl

end Spaced

namespace LocationCache

def mapTokens (f : Nat → Nat) (cache : LocationCache) : LocationCache :=
  ⟨cache.upper.map (·.map fun entry => { entry with token := f entry.token }), cache.leaves.map f⟩

variable {f : Nat → Nat} {cache : LocationCache} {levels : CacheLevels} {level depth : Nat}
  {waiting : Option Recorded} {elements : List Recorded}

@[simp] theorem levels_mapTokens : (cache.mapTokens f).levels = cache.levels := by
  simp [mapTokens, LocationCache.levels]

@[simp] theorem levelSize_mapTokens : (cache.mapTokens f).levelSize level = cache.levelSize level := by
  unfold levelSize entries
  rw [levels_mapTokens]
  unfold mapTokens
  by_cases hSome : level - 1 < cache.upper.size
  · simp [Array.getD, hSome]
  · simp [Array.getD, hSome]

theorem mapTokens_addEntry {entry : CacheEntry} : (cache.addEntry level entry).mapTokens f =
    (cache.mapTokens f).addEntry level { entry with token := f entry.token } := by
  have hUpper : (cache.upper.modify (level - 1) (·.push entry)).map
      (·.map fun entry => { entry with token := f entry.token }) =
      (cache.upper.map (·.map fun entry => { entry with token := f entry.token })).modify (level - 1)
        (·.push { entry with token := f entry.token }) := by
    apply Array.ext
    · simp
    · intro i hi hi'
      simp only [Array.getElem_map, Array.getElem_modify]
      split <;> simp
  simp only [mapTokens, addEntry, hUpper]

theorem mapTokens_addLeaf {token : Nat} :
    (cache.addLeaf token).mapTokens f = (cache.mapTokens f).addLeaf (f token) := by
  simp [mapTokens, addLeaf]

end LocationCache

def Recorded.mapToken (f : Nat → Nat) (e : Recorded) : Recorded :=
  { e with token := f e.token }

namespace LocationCache
variable {f : Nat → Nat} {cache : LocationCache} {levels : CacheLevels} {depth : Nat}
  {waiting : Option Recorded} {elements : List Recorded} {e : Recorded}

theorem mapTokens_settle : (cache.settle waiting depth).mapTokens f =
    (cache.mapTokens f).settle (waiting.map (Recorded.mapToken f)) depth := by
  cases waiting with
  | none => rfl
  | some w =>
    simp only [settle, Option.map_some, levels_mapTokens]
    change (if depth ≤ w.depth ∧ w.depth < cache.levels then _ else _ : LocationCache).mapTokens f =
      if depth ≤ w.depth ∧ w.depth < cache.levels then _ else _
    split
    · exact mapTokens_addEntry
    · rfl

theorem mapTokens_follow : (cache.follow waiting depth).mapTokens f =
    (cache.mapTokens f).follow (waiting.map (Recorded.mapToken f)) depth := by
  cases waiting with
  | none => rfl
  | some w =>
    have hSettle := @mapTokens_settle f cache depth (some w)
    simp only [follow, Option.map_some, levels_mapTokens, levelSize_mapTokens] at hSettle ⊢
    change (if w.depth + 1 = depth then _ else _ : LocationCache).mapTokens f =
      if w.depth + 1 = depth then _ else _
    split
    · exact mapTokens_addEntry
    · split
      · exact hSettle
      · rfl

/-- To record elements at other places gives a cache of those places. -/
theorem record_mapTokens : (cache.mapTokens f).record (waiting.map (Recorded.mapToken f)) (e.mapToken f) =
    ((cache.record waiting e).1.mapTokens f, (cache.record waiting e).2.map (Recorded.mapToken f)) := by
  by_cases hDepth : e.depth ≤ cache.levels
  · have hDepth' : (e.mapToken f).depth ≤ (cache.mapTokens f).levels := levels_mapTokens.symm ▸ hDepth
    rw [record_of_le hDepth, record_of_le hDepth', ← mapTokens_follow, levels_mapTokens]
    change (if e.depth = cache.levels then _ else _, _) = (mapTokens f (if e.depth = cache.levels then _ else _), _)
    split
    · rw [mapTokens_addLeaf]
      rfl
    · rfl
  · have hDeep := Nat.lt_of_not_le hDepth
    have hDeep' : (cache.mapTokens f).levels < (e.mapToken f).depth := levels_mapTokens.symm ▸ hDeep
    unfold record
    rw [if_pos hDeep, if_pos hDeep']

theorem recordAll_mapTokens {state : LocationCache × Option Recorded} :
    recordAll (state.1.mapTokens f, state.2.map (Recorded.mapToken f)) (elements.map (Recorded.mapToken f)) =
      ((recordAll state elements).1.mapTokens f, (recordAll state elements).2.map (Recorded.mapToken f)) := by
  induction elements generalizing state with
  | nil => rfl
  | cons e elements ih =>
    have hRecord := @record_mapTokens f state.1 state.2 e
    rw [List.map_cons, recordAll, List.foldl_cons, hRecord]
    exact ih

theorem ofElements_map : ofElements levels (elements.map (Recorded.mapToken f)) =
    (ofElements levels elements).mapTokens f := by
  have hEmpty : (empty levels).mapTokens f = empty levels := by cases levels <;> simp [mapTokens, empty]
  have hAll := @recordAll_mapTokens f elements (empty levels, none)
  rw [hEmpty] at hAll
  unfold ofElements
  rw [show recordAll (empty levels, none) (elements.map (Recorded.mapToken f)) = _ from hAll]
  exact mapTokens_settle.symm

end LocationCache

namespace Draft
variable {levels : CacheLevels} {tokens : List Token}

def opensRoot (t : Token) : Bool :=
  t.kind = .startTag ∧ t.depth = 0

theorem root_eq_getLast? : (ofTokens levels tokens).root =
    (tokens.zipIdx.filter fun placed => opensRoot placed.1).getLast?.map (·.2) := by
  induction tokens using List.reverseRecOn with
  | nil => rfl
  | append_singleton tokens t ih =>
    rw [ofTokens_append_singleton, root_rewrite, size_ofTokens, List.zipIdx_append, List.filter_append]
    by_cases hRoot : t.kind = .startTag ∧ t.depth = 0
    · rw [if_pos hRoot]
      simp [opensRoot, hRoot]
    · rw [if_neg hRoot, ih]
      simp [opensRoot, hRoot]

end Draft

theorem Token.elementsFrom_eq_map {tokens : List Token} : elementsFrom 0 tokens =
    (tokens.zipIdx.filter fun placed => decide (placed.1.kind = .startTag)).map fun placed =>
      ⟨placed.1.depth.toNat, placed.2⟩ := by
  rw [elementsFrom]
  induction tokens.zipIdx with
  | nil => rfl
  | cons placed rest ih =>
    obtain ⟨t, place⟩ := placed
    by_cases hStart : t.kind = .startTag
    · have hElement : t.element? place = some ⟨t.depth.toNat, place⟩ := element?_eq_some_iff.mpr ⟨hStart, rfl⟩
      simp only [List.filterMap_cons, hElement, ih, hStart, decide_true, List.filter_cons_of_pos, List.map_cons]
    · simp only [List.filterMap_cons, element?_eq_none_iff.mpr hStart, ih, hStart, decide_false,
        List.filter_cons_of_neg, Bool.false_eq_true, not_false_iff]

theorem Token.covered_mapToken {levels : CacheLevels} {f : Nat → Nat} {elements : List Recorded} :
    covered levels (elements.map (Recorded.mapToken f)) = (covered levels elements).map (Recorded.mapToken f) :=
  List.filter_map

namespace Spaced
variable {sort : Token → Prop} {tokens more : List Token} {levels : CacheLevels} {f : Nat → Nat}

section
variable (hPlaces : Places sort tokens more f) (hSort : ∀ t, sort t → t.kind ≠ .startTag)
include hPlaces hSort

theorem Places.elementsFrom_eq :
    Token.elementsFrom 0 more = (Token.elementsFrom 0 tokens).map (Recorded.mapToken f) := by
  have hSelect := hPlaces.select (fun t => decide (t.kind = .startTag)) fun t ht => decide_eq_false (hSort t ht)
  rw [Token.elementsFrom_eq_map, Token.elementsFrom_eq_map, hSelect, List.map_map, List.map_map]
  rfl

theorem Places.cache_eq : (Draft.ofTokens levels more).finish.cache =
    (Draft.ofTokens levels tokens).finish.cache.mapTokens f := by
  rw [Draft.cache_finish_ofTokens, Draft.cache_finish_ofTokens, hPlaces.elementsFrom_eq hSort, Token.covered_mapToken,
    LocationCache.ofElements_map]

theorem Places.root_eq : (Draft.ofTokens levels more).root = (Draft.ofTokens levels tokens).root.map f := by
  have hSelect := hPlaces.select Draft.opensRoot fun t ht => decide_eq_false fun h => hSort t ht h.1
  rw [Draft.root_eq_getLast?, Draft.root_eq_getLast?, hSelect, List.getLast?_map, Option.map_map, Option.map_map]
  rfl

end

theorem deepest_eq (hSpaced : Spaced sort tokens more) (hSort : ∀ t, sort t → t.kind ≠ .startTag) :
    Token.deepest more = Token.deepest tokens := by
  unfold Token.deepest
  generalize 0 = depth
  induction hSpaced generalizing depth with
  | nil => rfl
  | same t hRest ih => exact ih _
  | @space tokens more t ht hRest ih =>
    rw [List.foldl_cons, if_neg (hSort t ht)]
    exact ih depth

end Spaced
end XmlIndex
