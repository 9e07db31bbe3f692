import XmlIndex.Index.Draft
import XmlIndex.Proofs.Index.Files

/-! # Drafts with sound caches

A draft is sound if its cache would be linked as it should, were the document to end right now. A
child may be entered one level below the waiting element at most: its parent is then told where it
stands, and everything else only grows.
-/
namespace XmlIndex
set_option autoImplicit false

namespace LocationCache
variable {cache cache' : LocationCache} {level depth token tokenCount : Nat} {entry : CacheEntry}

@[simp] theorem levels_addEntry : (cache.addEntry level entry).levels = cache.levels := by
  simp [addEntry, levels]

@[simp] theorem levels_addLeaf : (cache.addLeaf token).levels = cache.levels := rfl

@[simp] theorem leaves_addEntry : (cache.addEntry level entry).leaves = cache.leaves := rfl

@[simp] theorem entries_addLeaf : (cache.addLeaf token).entries level = cache.entries level := rfl

theorem entries_addEntry_same (hLeast : 1 ≤ level) (hLevel : level < cache.levels) :
    (cache.addEntry level entry).entries level = (cache.entries level).push entry := by
  have hInside : level - 1 < cache.upper.size := by
    unfold levels at hLevel
    omega
  simp [entries, addEntry, hInside, Array.getElem_modify_self]

theorem entries_addEntry_other {other : Nat} (hLeast : 1 ≤ level) (hOther : 1 ≤ other)
    (hDiffer : level ≠ other) : (cache.addEntry level entry).entries other = cache.entries other := by
  have hPlaces : level - 1 ≠ other - 1 := by omega
  rw [entries, entries, addEntry, Array.getD_eq_getD_getElem?, Array.getD_eq_getD_getElem?,
    Array.getElem?_modify, if_neg hPlaces]

theorem levelSize_addEntry (hLeast : 1 ≤ level) (hLevel : level < cache.levels) {other : Nat}
    (hOther : 1 ≤ other) : (cache.addEntry level entry).levelSize other =
      cache.levelSize other + if level = other then 1 else 0 := by
  unfold levelSize
  rw [levels_addEntry, leaves_addEntry]
  by_cases hSame : level = other
  · subst hSame
    rw [if_neg (Nat.ne_of_lt hLevel), if_neg (Nat.ne_of_lt hLevel), if_pos rfl,
      entries_addEntry_same hLeast hLevel, Array.size_push]
  · rw [if_neg hSame, entries_addEntry_other hLeast hOther hSame, Nat.add_zero]

theorem levelSize_addLeaf : (cache.addLeaf token).levelSize level =
    cache.levelSize level + if level = cache.levels then 1 else 0 := by
  unfold levelSize
  rw [levels_addLeaf, entries_addLeaf]
  split
  · exact Array.size_push ..
  · rfl

theorem mem_entries_addEntry {other : Nat} {found : CacheEntry} (hLeast : 1 ≤ level)
    (hLevel : level < cache.levels) (hOther : 1 ≤ other) :
    found ∈ (cache.addEntry level entry).entries other ↔
      found ∈ cache.entries other ∨ level = other ∧ found = entry := by
  by_cases hSame : level = other
  · subst hSame
    rw [entries_addEntry_same hLeast hLevel, Array.mem_push]
    exact or_congr_right (iff_and_self.mpr fun _ => rfl)
  · rw [entries_addEntry_other hLeast hOther hSame]
    simp [hSame]

def enter (cache : LocationCache) (depth token : Nat) : LocationCache :=
  if depth = cache.levels then cache.addLeaf token else cache.addEntry depth ⟨token, none⟩

theorem levelSize_enter (hLeast : 1 ≤ depth) (hDepth : depth ≤ cache.levels) (hLevel : 1 ≤ level) :
    (cache.enter depth token).levelSize level = cache.levelSize level + if depth = level then 1 else 0 := by
  unfold enter
  by_cases hLast : depth = cache.levels
  · rw [if_pos hLast, levelSize_addLeaf, hLast]
    simp only [eq_comm]
  · rw [if_neg hLast, levelSize_addEntry hLeast (Nat.lt_of_le_of_ne hDepth hLast) hLevel]

theorem mem_leaves_enter {leaf : Nat} (hLeaf : leaf ∈ (cache.enter depth token).leaves) :
    leaf ∈ cache.leaves ∨ leaf = token := by
  unfold enter at hLeaf
  split at hLeaf
  · exact Array.mem_push.mp hLeaf
  · exact .inl hLeaf

theorem mem_entries_enter {found : CacheEntry} (hLeast : 1 ≤ depth) (hDepth : depth ≤ cache.levels)
    (hLevel : 1 ≤ level) (hFound : found ∈ (cache.enter depth token).entries level) :
    found ∈ cache.entries level ∨ found = ⟨token, none⟩ := by
  unfold enter at hFound
  split at hFound
  · exact .inl hFound
  · rename_i hLast
    exact ((mem_entries_addEntry hLeast (Nat.lt_of_le_of_ne hDepth hLast) hLevel).mp hFound).imp_right And.right

structure Sound (cache : LocationCache) (tokenCount : Nat) : Prop extends cache.Linked tokenCount where
  levelSize_le : ∀ level, 1 ≤ level → cache.levelSize level ≤ tokenCount

theorem Sound.mono {more : Nat} (hSound : cache.Sound tokenCount) (hMore : tokenCount ≤ more) :
    cache.Sound more where
  token_lt level entry h := Nat.lt_of_lt_of_le (hSound.token_lt level entry h) hMore
  child_lt := hSound.child_lt
  leaf_lt token h := Nat.lt_of_lt_of_le (hSound.leaf_lt token h) hMore
  levelSize_le level h := Nat.le_trans (hSound.levelSize_le level h) hMore

/-- The entries of a sound cache fit their records, unless there are too many tokens. -/
theorem Sound.storable (hSound : cache.Sound tokenCount) (hFew : tokenCount ≤ CacheEntry.noChild) :
    ∀ level ∈ cache.upper, level.size ≤ tokenCount ∧ ∀ entry ∈ level, entry.Storable := by
  intro level hMem
  obtain ⟨i, hi, rfl⟩ := Array.mem_iff_getElem.mp hMem
  rw [← entries_succ hi]
  have hSize := hSound.levelSize_le (i + 1) (Nat.succ_pos _)
  have hUpper : i + 1 ≠ cache.levels := by
    unfold levels
    omega
  rw [levelSize, if_neg hUpper] at hSize
  refine ⟨hSize, fun entry hEntry => ⟨?_, fun child hChild => ?_⟩⟩
  · have hToken := hSound.token_lt i entry hEntry
    unfold CacheEntry.noChild at hFew
    omega
  · have hNext := hSound.child_lt i entry hEntry child hChild
    have hThere := hSound.levelSize_le (i + 2) (Nat.succ_pos _)
    omega

theorem Sound.size_leaves_le (hSound : cache.Sound tokenCount) : cache.leaves.size ≤ tokenCount := by
  have hLast := hSound.levelSize_le cache.levels (Nat.succ_pos _)
  rwa [levelSize, if_pos rfl] at hLast

/-- An element after which nothing is known of another. -/
theorem Sound.enter (hSound : cache.Sound tokenCount) (hLeast : 1 ≤ depth) (hDepth : depth ≤ cache.levels) :
    (cache.enter depth tokenCount).Sound (tokenCount + 1) where
  token_lt level found hFound := by
    obtain hOld | rfl := mem_entries_enter hLeast hDepth (by omega) hFound
    · exact Nat.lt_succ_of_lt (hSound.token_lt level found hOld)
    · exact Nat.lt_succ_self _
  child_lt level found hFound child hChild := by
    rw [levelSize_enter hLeast hDepth (by omega)]
    obtain hOld | rfl := mem_entries_enter hLeast hDepth (by omega) hFound
    · exact Nat.lt_add_right _ (hSound.child_lt level found hOld child hChild)
    · cases hChild
  leaf_lt leaf hLeaf := by
    obtain hOld | rfl := mem_leaves_enter hLeaf
    · exact Nat.lt_succ_of_lt (hSound.leaf_lt leaf hOld)
    · exact Nat.lt_succ_self _
  levelSize_le level hLevel := by
    have hOld := hSound.levelSize_le level hLevel
    rw [levelSize_enter hLeast hDepth hLevel]
    split <;> omega

/-- An element told of its first child, where that is about to stand. -/
theorem Sound.enter_child (hSound : (cache.addEntry level ⟨token, none⟩).Sound tokenCount)
    (hLeast : 1 ≤ level) (hLevel : level < cache.levels) :
    ((cache.addEntry level ⟨token, some (cache.levelSize (level + 1))⟩).enter (level + 1) tokenCount).Sound
      (tokenCount + 1) := by
  have hDepth : level + 1 ≤ (cache.addEntry level ⟨token, some (cache.levelSize (level + 1))⟩).levels := by
    rw [levels_addEntry]
    exact hLevel
  have hSize {other : Nat} (hOther : 1 ≤ other) :
      (cache.addEntry level ⟨token, some (cache.levelSize (level + 1))⟩).levelSize other =
        (cache.addEntry level ⟨token, none⟩).levelSize other := by
    rw [levelSize_addEntry hLeast hLevel hOther, levelSize_addEntry hLeast hLevel hOther]
  -- What is entered is as it was, but for the entry that now has a child.
  have hFound {other : Nat} {found : CacheEntry} (hOther : 1 ≤ other)
      (h : found ∈ ((cache.addEntry level ⟨token, some (cache.levelSize (level + 1))⟩).enter (level + 1)
        tokenCount).entries other) : found ∈ (cache.addEntry level ⟨token, none⟩).entries other ∨
          level = other ∧ found = ⟨token, some (cache.levelSize (level + 1))⟩ ∨ found = ⟨tokenCount, none⟩ := by
    obtain hOld | hNew := mem_entries_enter (Nat.le_add_left 1 level) hDepth hOther h
    · obtain hOld | hChanged := (mem_entries_addEntry hLeast hLevel hOther).mp hOld
      · exact .inl ((mem_entries_addEntry hLeast hLevel hOther).mpr (.inl hOld))
      · exact .inr (.inl hChanged)
    · exact .inr (.inr hNew)
  refine ⟨⟨fun other found h => ?_, fun other found h child hChild => ?_, fun leaf hLeaf => ?_⟩,
    fun other hOther => ?_⟩
  · obtain hOld | ⟨rfl, rfl⟩ | rfl := hFound (Nat.le_add_left 1 other) h
    · exact Nat.lt_succ_of_lt (hSound.token_lt other found hOld)
    · exact Nat.lt_succ_of_lt (hSound.token_lt other ⟨token, none⟩
        ((mem_entries_addEntry hLeast hLevel hLeast).mpr (.inr ⟨rfl, rfl⟩)))
    · exact Nat.lt_succ_self _
  · rw [levelSize_enter (Nat.le_add_left 1 level) hDepth (by omega), hSize (by omega)]
    obtain hOld | ⟨rfl, rfl⟩ | rfl := hFound (Nat.le_add_left 1 other) h
    · exact Nat.lt_add_right _ (hSound.child_lt other found hOld child hChild)
    · cases hChild
      rw [if_pos rfl]
      refine Nat.lt_succ_of_le ?_
      rw [levelSize_addEntry hLeast hLevel (by omega), if_neg (by omega)]
      exact Nat.le_refl _
    · cases hChild
  · obtain hOld | rfl := mem_leaves_enter hLeaf
    · exact Nat.lt_succ_of_lt (hSound.leaf_lt leaf hOld)
    · exact Nat.lt_succ_self _
  · have hOld := hSound.levelSize_le other hOther
    rw [levelSize_enter (Nat.le_add_left 1 level) hDepth hOther, hSize hOther]
    split <;> omega

@[simp] theorem levels_settle {waiting : Option Recorded} : (cache.settle waiting depth).levels = cache.levels := by
  unfold settle
  split
  · rfl
  · split <;> simp

@[simp] theorem levels_follow {waiting : Option Recorded} : (cache.follow waiting depth).levels = cache.levels := by
  unfold follow
  split
  · rfl
  · split
    · simp
    · split <;> simp

/-- If the document ended before another element. -/
theorem settle_one {w : Recorded} (hLeast : 1 ≤ w.depth) :
    cache.settle (some w) 1 = if w.depth < cache.levels then cache.addEntry w.depth ⟨w.token, none⟩ else cache := by
  simp only [settle, hLeast, true_and]

theorem record_of_le {waiting : Option Recorded} (hDepth : depth ≤ cache.levels) :
    cache.record waiting ⟨depth, token⟩ =
      (if depth = cache.levels then (cache.follow waiting depth).addLeaf token else cache.follow waiting depth,
        some ⟨depth, token⟩) := by
  rw [record, if_neg (Nat.not_lt.mpr hDepth)]
  simp only [levels_follow]

@[simp] theorem levels_record {waiting : Option Recorded} {element : Recorded} :
    (cache.record waiting element).1.levels = cache.levels := by
  unfold record
  split
  · rfl
  · simp only
    split <;> simp

theorem settle_record {waiting : Option Recorded} (hLeast : 1 ≤ depth) (hDepth : depth ≤ cache.levels) :
    (cache.record waiting ⟨depth, token⟩).1.settle (cache.record waiting ⟨depth, token⟩).2 1 =
      (cache.follow waiting depth).enter depth token := by
  rw [record_of_le hDepth, settle_one hLeast, enter, levels_follow]
  by_cases hLast : depth = cache.levels
  · rw [if_pos hLast, if_pos hLast, if_neg]
    rw [levels_addLeaf, levels_follow]
    exact Nat.not_lt.mpr (Nat.le_of_eq hLast.symm)
  · rw [if_neg hLast, if_neg hLast, if_pos]
    rw [levels_follow]
    exact Nat.lt_of_le_of_ne hDepth hLast

/-- An element that is no child of the one waiting. -/
theorem follow_eq_settle {w : Recorded} (hLeast : 1 ≤ depth) (hDepth : depth ≤ w.depth) :
    cache.follow (some w) depth = cache.settle (some w) 1 := by
  rw [settle_one (Nat.le_trans hLeast hDepth)]
  simp only [follow, settle]
  rw [if_neg (by omega)]
  by_cases hUpper : depth < cache.levels
  · rw [if_pos hUpper]
    simp only [hDepth, true_and]
  · rw [if_neg hUpper, if_neg (by omega)]

/-- Recording keeps a cache sound as long as elements go down one level at a time. -/
theorem Sound.record {waiting : Option Recorded} (hSound : (cache.settle waiting 1).Sound tokenCount)
    (hWaiting : ∀ w, waiting = some w → 1 ≤ w.depth ∧ depth ≤ w.depth + 1)
    (hLeast : 1 ≤ depth) (hDepth : depth ≤ cache.levels) :
    ((cache.record waiting ⟨depth, tokenCount⟩).1.settle (cache.record waiting ⟨depth, tokenCount⟩).2 1).Sound
      (tokenCount + 1) := by
  rw [settle_record hLeast hDepth]
  cases waiting with
  | none => exact hSound.enter hLeast hDepth
  | some w =>
    obtain ⟨hFirst, hNext⟩ := hWaiting w rfl
    by_cases hChild : w.depth + 1 = depth
    · subst hChild
      have hFollow : cache.follow (some w) (w.depth + 1) =
          cache.addEntry w.depth ⟨w.token, some (cache.levelSize (w.depth + 1))⟩ := if_pos rfl
      rw [settle_one hFirst, if_pos (Nat.lt_of_succ_le hDepth)] at hSound
      rw [hFollow]
      exact hSound.enter_child hFirst hDepth
    · rw [follow_eq_settle hLeast (by omega)]
      exact hSound.enter hLeast (by rwa [levels_settle])

end LocationCache

def Token.IsShallow (t : Token) : Prop :=
  -1 ≤ t.depth ∧ t.depth ≤ Token.maxDepth

/-- The cache would be sound if no element followed. -/
structure Draft.Sound (d : Draft) : Prop where
  tokens : ∀ t ∈ d.tokens, t.IsShallow
  levels : ∃ levels : CacheLevels, d.cache.levels = levels.count
  cache : (d.cache.settle d.waiting 1).Sound d.tokens.size
  waiting : ∀ w, d.waiting = some w → 1 ≤ w.depth
  root_lt : ∀ root, d.root = some root → root < d.tokens.size

/-- An element inside `count` open ones is no deeper than one level below the one recorded last. -/
def Draft.Reaches (d : Draft) (count : Nat) : Prop :=
  ∀ depth, count = depth + 2 → ∃ w, d.waiting = some w ∧ min (depth + 1) d.cache.levels ≤ w.depth

namespace Draft
variable {d : Draft} {depth count offset lengthField : Nat}

theorem Sound.write {t : Token} (hSound : d.Sound) (hShallow : t.IsShallow) : (d.write t).Sound := by
  have hMore : d.tokens.size ≤ (d.write t).tokens.size := by
    rw [Draft.write, Array.size_push]
    exact Nat.le_succ _
  exact
    { tokens := fun u hu => (Array.mem_push.mp hu).elim (hSound.tokens u) (· ▸ hShallow)
      levels := hSound.levels
      cache := hSound.cache.mono hMore
      waiting := hSound.waiting
      root_lt := fun root hRoot => Nat.lt_of_lt_of_le (hSound.root_lt root hRoot) hMore }

theorem Reaches.mono {fewer : Nat} (hReaches : d.Reaches count) (hFewer : fewer ≤ count) : d.Reaches fewer := by
  intro depth hDepth
  obtain ⟨w, hWaiting, hLeast⟩ := hReaches (count - 2) (by omega)
  exact ⟨w, hWaiting, by omega⟩

theorem recordElement_of_pos {token : Nat} (hDepth : 0 < depth) : d.recordElement depth token =
    { d with
      cache := (d.cache.record d.waiting ⟨depth, token⟩).1
      waiting := (d.cache.record d.waiting ⟨depth, token⟩).2 } := by
  rw [recordElement, if_neg (by omega), if_pos (by omega)]
  rfl

/-- Elements inside `depth` open ones, of which the innermost has been recorded if it is covered. -/
theorem Sound.writeElement (hSound : d.Sound) (hReaches : d.Reaches depth) (hGreatest : depth ≤ Token.maxDepth) :
    (d.writeElement depth offset lengthField).Sound ∧ (d.writeElement depth offset lengthField).Reaches (depth + 1) := by
  have hSize : (d.write ⟨.startTag, depth, offset, lengthField⟩).tokens.size = d.tokens.size + 1 :=
    Array.size_push ..
  have hWritten : (d.write ⟨.startTag, depth, offset, lengthField⟩).Sound :=
    hSound.write ⟨by simp only; omega, by simp only; omega⟩
  simp only [Draft.writeElement]
  by_cases hRoot : depth = 0
  · subst hRoot
    exact ⟨{ hWritten with root_lt := fun root h => Option.some.inj h ▸ hSize ▸ Nat.lt_succ_self _ }, nofun⟩
  rw [recordElement_of_pos (by omega)]
  by_cases hDepth : depth ≤ d.cache.levels
  · have hWaiting : ∀ w, d.waiting = some w → 1 ≤ w.depth ∧ depth ≤ w.depth + 1 := by
      intro w hw
      have hLeast := hSound.waiting w hw
      refine ⟨hLeast, ?_⟩
      by_cases hSmall : depth ≤ 1
      · omega
      · obtain ⟨w', hw', hReach⟩ := hReaches (depth - 2) (by omega)
        obtain rfl : w = w' := Option.some.inj (hw.symm.trans hw')
        omega
    obtain ⟨levels, hLevels⟩ := hSound.levels
    have hRecord := congrArg Prod.snd (@LocationCache.record_of_le d.cache depth d.tokens.size d.waiting hDepth)
    have hCache := hSound.cache.record hWaiting (by omega) hDepth
    refine ⟨⟨hWritten.tokens, ?_, hSize ▸ hCache, fun w hw => ?_, hWritten.root_lt⟩,
      fun deeper hDeeper => ⟨_, hRecord, ?_⟩⟩
    · rw [← LocationCache.levels_record] at hLevels
      exact ⟨levels, hLevels⟩
    · obtain rfl : _ = w := Option.some.inj (hRecord.symm.trans hw)
      exact Nat.pos_of_ne_zero hRoot
    · obtain rfl : depth = deeper + 1 := by omega
      exact Nat.min_le_left _ _
  · have hRecord : d.cache.record d.waiting ⟨depth, d.tokens.size⟩ = (d.cache, d.waiting) :=
      if_pos (Nat.lt_of_not_le hDepth)
    have hSame : (d.write ⟨.startTag, depth, offset, lengthField⟩).cache.record
        (d.write ⟨.startTag, depth, offset, lengthField⟩).waiting ⟨depth, d.tokens.size⟩ = (d.cache, d.waiting) :=
      hRecord
    rw [hSame]
    have hPositive : 1 ≤ d.cache.levels := Nat.le_add_left 1 _
    refine ⟨{ hWritten with }, fun deeper hDeeper => ?_⟩
    obtain ⟨w, hw, hReach⟩ := hReaches (depth - 2) (by omega)
    exact ⟨w, hw, by simp only; omega⟩

/-- Nothing is written yet. -/
theorem sound_empty (levels : CacheLevels) : (empty levels).Sound := by
  have hEntries (level : Nat) : (LocationCache.empty levels).entries level = #[] := by
    rw [LocationCache.entries, LocationCache.empty, Array.getD_eq_getD_getElem?, Array.getElem?_replicate]
    split <;> rfl
  have hMember (level : Nat) (entry : CacheEntry) (h : entry ∈ (LocationCache.empty levels).entries level) :
      False := by
    rw [hEntries] at h
    exact Array.not_mem_empty entry h
  have hLevels : (LocationCache.empty levels).levels = levels.count := by
    cases levels <;> rfl
  have hSize (level : Nat) : (LocationCache.empty levels).levelSize level ≤ 0 := by
    rw [LocationCache.levelSize, hEntries]
    split <;> exact Nat.le_refl 0
  exact
    { tokens := fun t ht => absurd ht (Array.not_mem_empty t)
      levels := ⟨levels, hLevels⟩
      cache :=
        { token_lt := fun level entry h => (hMember _ entry h).elim
          child_lt := fun level entry h => (hMember _ entry h).elim
          leaf_lt := fun token h => absurd h (Array.not_mem_empty token)
          levelSize_le := fun level _ => hSize level }
      waiting := by
        rintro _ ⟨⟩
      root_lt := by
        rintro _ ⟨⟩ }

end Draft
end XmlIndex
