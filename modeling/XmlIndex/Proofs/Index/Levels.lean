import Mathlib.Data.List.Chain
import XmlIndex.Proofs.Index.Drafts

/-! # Caches of whole documents

To record elements one after the other, each entered when the next one is known, comes to entering each of
them at once with a look at the next. Of a cache built like this it is plain what its levels list.
-/
namespace XmlIndex
set_option autoImplicit false

/-- An element is at most one level deeper than the one before it. -/
def Recorded.Follows (before after : Recorded) : Prop :=
  after.depth ≤ before.depth + 1

namespace LocationCache
variable {cache : LocationCache} {levels : CacheLevels} {e w : Recorded} {elements rest : List Recorded} {level : Nat}

def recordAll (state : LocationCache × Option Recorded) (elements : List Recorded) : LocationCache × Option Recorded :=
  elements.foldl (fun state e => state.1.record state.2 e) state

theorem recordAll_append {state : LocationCache × Option Recorded} :
    recordAll state (elements ++ rest) = recordAll (recordAll state elements) rest :=
  List.foldl_append

def ofElements (levels : CacheLevels) (elements : List Recorded) : LocationCache :=
  let (cache, waiting) := recordAll (empty levels, none) elements
  cache.settle waiting 1

def tokensAt (cache : LocationCache) (level : Nat) : List Nat :=
  if level = cache.levels then cache.leaves.toList else (cache.entries level).toList.map (·.token)

theorem length_tokensAt : (cache.tokensAt level).length = cache.levelSize level := by
  unfold tokensAt levelSize
  split
  · exact Array.length_toList
  · rw [List.length_map, Array.length_toList]

def Covers (cache : LocationCache) (e : Recorded) : Prop :=
  1 ≤ e.depth ∧ e.depth ≤ cache.levels

def place (cache : LocationCache) (e : Recorded) (next? : Option Recorded) : LocationCache :=
  if e.depth = cache.levels then cache.addLeaf e.token
  else
    cache.addEntry e.depth
      ⟨e.token, if next?.any (·.depth = e.depth + 1) then some (cache.levelSize (e.depth + 1)) else none⟩

def placeAll (cache : LocationCache) : List Recorded → LocationCache
  | [] => cache
  | e :: rest => (cache.place e rest.head?).placeAll rest

@[simp] theorem levels_place {next? : Option Recorded} : (cache.place e next?).levels = cache.levels := by
  unfold place
  split <;> simp

@[simp] theorem levels_placeAll : (cache.placeAll elements).levels = cache.levels := by
  induction elements generalizing cache with
  | nil => rfl
  | cons e rest ih => rw [placeAll, ih, levels_place]

/-- The cache and the waiting element when `w` has been recorded last; `cache` is what it was before. -/
def awaiting (cache : LocationCache) (w : Recorded) : LocationCache × Option Recorded :=
  (if w.depth = cache.levels then cache.addLeaf w.token else cache, some w)

theorem record_none (hCovers : cache.Covers e) : cache.record none e = cache.awaiting e :=
  record_of_le hCovers.2

theorem settle_awaiting (hCovers : cache.Covers w) :
    (cache.awaiting w).1.settle (cache.awaiting w).2 1 = cache.place w none := by
  have hSettle := @settle_one (cache.awaiting w).1 w hCovers.1
  unfold awaiting place at *
  rw [hSettle]
  by_cases hLast : w.depth = cache.levels
  · rw [if_pos hLast, if_pos hLast, levels_addLeaf, if_neg (Nat.not_lt.mpr (Nat.le_of_eq hLast.symm))]
  · rw [if_neg hLast, if_neg hLast, if_pos (Nat.lt_of_le_of_ne hCovers.2 hLast)]
    rfl

/-- What the next element makes of the one that waits. -/
theorem follow_awaiting (hWaiting : cache.Covers w) (hNext : cache.Covers e) (hFollows : w.Follows e) :
    (cache.awaiting w).1.follow (some w) e.depth = cache.place w (some e) := by
  by_cases hChild : w.depth + 1 = e.depth
  · have hUpper : w.depth ≠ cache.levels := by
      have hLevels := hNext.2
      omega
    have hAny : (some e).any (·.depth = w.depth + 1) = true := by simp [hChild]
    rw [awaiting, place, if_neg hUpper, if_neg hUpper, hAny, if_pos rfl]
    simp only [follow, hChild, if_true]
  · have hNone : (some e).any (·.depth = w.depth + 1) = false := by simpa using Ne.symm hChild
    have hDepth : e.depth ≤ w.depth := by
      unfold Recorded.Follows at hFollows
      omega
    rw [follow_eq_settle hNext.1 hDepth]
    refine (settle_awaiting hWaiting).trans ?_
    unfold place
    rw [hNone]
    rfl

theorem record_awaiting (hWaiting : cache.Covers w) (hNext : cache.Covers e) (hFollows : w.Follows e) :
    (cache.awaiting w).1.record (cache.awaiting w).2 e = (cache.place w (some e)).awaiting e := by
  have hLevels : (cache.awaiting w).1.levels = cache.levels := by
    unfold awaiting
    split <;> simp
  have hDepth : e.depth ≤ (cache.awaiting w).1.levels := hLevels.symm ▸ hNext.2
  have hFollow := follow_awaiting hWaiting hNext hFollows
  refine (record_of_le hDepth).trans ?_
  rw [hLevels, show (cache.awaiting w).2 = some w from rfl, hFollow, awaiting, levels_place]

/-- By induction on the elements to come: the cache before the waiting element carries the state. -/
theorem settle_recordAll (hCovers : ∀ e ∈ w :: rest, cache.Covers e)
    (hChain : (w :: rest).IsChain Recorded.Follows) :
    (recordAll (cache.awaiting w) rest).1.settle (recordAll (cache.awaiting w) rest).2 1 =
      cache.placeAll (w :: rest) := by
  induction rest generalizing cache w with
  | nil => exact settle_awaiting (hCovers w List.mem_cons_self)
  | cons e rest ih =>
    obtain ⟨hWaiting, hRest⟩ := List.forall_mem_cons.mp hCovers
    obtain ⟨hFollows, hLater⟩ := List.isChain_cons_cons.mp hChain
    have hRecord := record_awaiting hWaiting (hRest e List.mem_cons_self) hFollows
    have hSame : recordAll (cache.awaiting w) (e :: rest) =
        recordAll ((cache.place w (some e)).awaiting e) rest := by
      rw [recordAll, List.foldl_cons, hRecord, recordAll]
    rw [hSame]
    refine ih (fun f hf => ?_) hLater
    unfold Covers
    rw [levels_place]
    exact hRest f hf

@[simp] theorem levels_empty : (empty levels).levels = levels.count := by
  cases levels <;> rfl

theorem ofElements_eq_placeAll (hCovers : ∀ e ∈ elements, (empty levels).Covers e)
    (hChain : elements.IsChain Recorded.Follows) : ofElements levels elements = (empty levels).placeAll elements := by
  cases elements with
  | nil => rfl
  | cons e rest =>
    have hFirst := record_none (hCovers e List.mem_cons_self)
    have hSame : recordAll (empty levels, none) (e :: rest) = recordAll ((empty levels).awaiting e) rest := by
      rw [recordAll, List.foldl_cons, hFirst, recordAll]
    rw [ofElements, hSame]
    exact settle_recordAll hCovers hChain

theorem tokensAt_place {next? : Option Recorded} (hCovers : cache.Covers e) (hLevel : 1 ≤ level) :
    (cache.place e next?).tokensAt level = cache.tokensAt level ++ if e.depth = level then [e.token] else [] := by
  unfold tokensAt
  rw [levels_place]
  unfold place
  by_cases hLast : e.depth = cache.levels
  · rw [if_pos hLast]
    by_cases hSame : level = cache.levels
    · simp [hSame, hLast, addLeaf]
    · have hOther : e.depth ≠ level := by omega
      simp [hSame, hOther]
  · rw [if_neg hLast]
    have hUpper : e.depth < cache.levels := Nat.lt_of_le_of_ne hCovers.2 hLast
    by_cases hSame : e.depth = level
    · subst hSame
      rw [if_neg hLast, if_neg hLast, if_pos rfl, entries_addEntry_same hCovers.1 hUpper]
      simp
    · rw [entries_addEntry_other hCovers.1 hLevel hSame]
      simp [hSame]

/-- Each level lists its elements in the order of the document. -/
theorem tokensAt_placeAll (hCovers : ∀ e ∈ elements, cache.Covers e) (hLevel : 1 ≤ level) :
    (cache.placeAll elements).tokensAt level =
      cache.tokensAt level ++ (elements.filter (·.depth = level)).map (·.token) := by
  induction elements generalizing cache with
  | nil => simp [placeAll]
  | cons e rest ih =>
    obtain ⟨hFirst, hRest⟩ := List.forall_mem_cons.mp hCovers
    rw [placeAll, ih fun f hf => by unfold Covers; rw [levels_place]; exact hRest f hf,
      tokensAt_place hFirst hLevel, List.append_assoc]
    by_cases hSame : e.depth = level <;> simp [hSame]

theorem mem_entries_place {next? : Option Recorded} {entry : CacheEntry} (hCovers : cache.Covers e)
    (hLevel : 1 ≤ level) (hUpper : level < cache.levels) (hEntry : entry ∈ (cache.place e next?).entries level) :
    entry ∈ cache.entries level ∨ e = ⟨level, entry.token⟩ ∧
      entry.firstChild = if next?.any (·.depth = level + 1) then some (cache.levelSize (level + 1)) else none := by
  unfold place at hEntry
  by_cases hLast : e.depth = cache.levels
  · rw [if_pos hLast, entries_addLeaf] at hEntry
    exact .inl hEntry
  · rw [if_neg hLast] at hEntry
    rcases (mem_entries_addEntry hCovers.1 (Nat.lt_of_le_of_ne hCovers.2 hLast) hLevel).mp hEntry with
      hOld | ⟨rfl, rfl⟩
    · exact .inl hOld
    · exact .inr ⟨rfl, rfl⟩

/-- An entry has a first child if the element right after it is one level deeper; the child stands behind all
elements of its level before it. -/
theorem mem_entries_placeAll {entry : CacheEntry} (hCovers : ∀ e ∈ elements, cache.Covers e) (hLevel : 1 ≤ level)
    (hUpper : level < cache.levels) (hEntry : entry ∈ (cache.placeAll elements).entries level) :
    entry ∈ cache.entries level ∨ ∃ before after, elements = before ++ ⟨level, entry.token⟩ :: after ∧
      entry.firstChild = if after.head?.any (·.depth = level + 1) then
        some (cache.levelSize (level + 1) + (before.filter (·.depth = level + 1)).length) else none := by
  induction elements generalizing cache with
  | nil => exact .inl hEntry
  | cons e rest ih =>
    obtain ⟨hFirst, hRest⟩ := List.forall_mem_cons.mp hCovers
    have hRestCovers : ∀ f ∈ rest, (cache.place e rest.head?).Covers f := fun f hf => by
      unfold Covers
      rw [levels_place]
      exact hRest f hf
    have hLater := ih hRestCovers (by rwa [levels_place]) hEntry
    rcases hLater with hPlaced | ⟨before, after, rfl, hChild⟩
    · rcases mem_entries_place hFirst hLevel hUpper hPlaced with hOld | ⟨rfl, hChild⟩
      · exact .inl hOld
      · exact .inr ⟨[], rest, rfl, hChild⟩
    · refine .inr ⟨e :: before, after, rfl, hChild.trans ?_⟩
      rw [← length_tokensAt, tokensAt_place hFirst (Nat.le_add_left 1 level), List.length_append, length_tokensAt]
      by_cases hSame : e.depth = level + 1 <;> simp [hSame, Nat.add_assoc, Nat.add_comm 1]

end LocationCache
end XmlIndex
