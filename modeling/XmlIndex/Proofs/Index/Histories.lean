import XmlIndex.Proofs.Index.Levels
import XmlIndex.Proofs.Lexer.Writing
import Mathlib.Data.List.Induction

/-! # Histories of a draft

Three operations empty a draft for the next document. Resetting and taking leave a new draft. Reclaiming
forgets the tokens and the cache, but neither the root nor the element that waits for its first child:
where there is either, it turns up in the next document, as the root or as an entry of the cache, and the
token it names need not be there.
-/
namespace XmlIndex
set_option autoImplicit false

namespace Draft

inductive Operation where
  | write (t : Token)
  | writeElement (depth : Int) (offset lengthField : Nat)
  | writeText (kind : TokenKind) (depth : Int) (offset length : Nat)
  | finish
  | reset (levels : CacheLevels)
  | take
  | reclaim (tokens : Array Token) (cache : LocationCache)

def perform (d : Draft) : Operation → Draft
  | .write t => d.write t
  | .writeElement depth offset lengthField => d.writeElement depth offset lengthField
  | .writeText kind depth offset length => d.writeText kind depth offset length
  | .finish => d.finish
  | .reset levels => d.reset levels
  | .take => d.take.2
  | .reclaim tokens cache => d.reclaim tokens cache

def after (levels : CacheLevels) (history : List Operation) : Draft :=
  history.foldl perform (empty levels)

theorem after_append_singleton (levels : CacheLevels) (history : List Operation) (operation : Operation) :
    after levels (history ++ [operation]) = (after levels history).perform operation :=
  List.foldl_append

/-- What can be seen of a draft. -/
def observed (d : Draft) : Array Token × Option Nat × LocationCache :=
  (d.tokens, d.root, d.cache)

/-- Whatever is done next, the two drafts cannot be told apart. -/
def Indistinct (d d' : Draft) : Prop :=
  ∀ later : List Operation, (later.foldl perform d).observed = (later.foldl perform d').observed

/-- No element waits for its first child: if there is a last element at all, it is a leaf of the cache. -/
def IsIdle (d : Draft) : Prop :=
  ∀ w, d.waiting = some w → d.cache.levels ≤ w.depth

/-- There is nothing that reclaiming would forget to clear. -/
def IsBlank (d : Draft) : Prop :=
  d.root = none ∧ d.IsIdle

def ReclaimsBlank (levels : CacheLevels) (history : List Operation) : Prop :=
  ∀ earlier tokens cache later, history = earlier ++ .reclaim tokens cache :: later →
    (after levels earlier).IsBlank

end Draft

namespace LocationCache
variable {cache : LocationCache} {waiting : Option Recorded} {depth level token : Nat} {found : CacheEntry}

theorem settle_of_forall_le (hIdle : ∀ w, waiting = some w → cache.levels ≤ w.depth) (depth : Nat) :
    cache.settle waiting depth = cache := by
  cases waiting with
  | none => rfl
  | some w => exact if_neg fun hUpper => Nat.not_lt.mpr (hIdle w rfl) hUpper.2

theorem follow_of_forall_le (hIdle : ∀ w, waiting = some w → cache.levels ≤ w.depth) (hDepth : depth ≤ cache.levels) :
    cache.follow waiting depth = cache := by
  have hSettle := settle_of_forall_le hIdle depth
  cases waiting with
  | none => rfl
  | some w =>
    have hLeaf := hIdle w rfl
    rw [follow]
    simp only [hSettle, ite_self]
    rw [if_neg (by omega)]

/-- An element that does wait is entered at the end of the document. -/
theorem settle_one_ne {w : Recorded} (hLeast : 1 ≤ w.depth) (hUpper : w.depth < cache.levels) :
    cache.settle (some w) 1 ≠ cache := by
  rw [settle_one hLeast, if_pos hUpper]
  intro hSame
  have hSize := @levelSize_addEntry cache w.depth ⟨w.token, none⟩ hLeast hUpper w.depth hLeast
  rw [hSame, if_pos rfl] at hSize
  omega

theorem mem_entries_settle (hLeast : ∀ w, waiting = some w → 1 ≤ w.depth) (hLevel : 1 ≤ level)
    (hFound : found ∈ (cache.settle waiting depth).entries level) :
    found ∈ cache.entries level ∨ ∃ w, waiting = some w ∧ w.depth < cache.levels ∧ found.token = w.token := by
  cases waiting with
  | none => exact .inl hFound
  | some w =>
    rw [settle] at hFound
    split at hFound
    · rename_i hUpper
      refine ((mem_entries_addEntry (hLeast w rfl) hUpper.2 hLevel).mp hFound).imp_right ?_
      rintro ⟨-, rfl⟩
      exact ⟨w, rfl, hUpper.2, rfl⟩
    · exact .inl hFound

theorem mem_entries_follow (hLeast : ∀ w, waiting = some w → 1 ≤ w.depth) (hDepth : depth ≤ cache.levels)
    (hLevel : 1 ≤ level) (hFound : found ∈ (cache.follow waiting depth).entries level) :
    found ∈ cache.entries level ∨ ∃ w, waiting = some w ∧ w.depth < cache.levels ∧ found.token = w.token := by
  cases waiting with
  | none => exact .inl hFound
  | some w =>
    rw [follow] at hFound
    split at hFound
    · refine ((mem_entries_addEntry (hLeast w rfl) (by omega) hLevel).mp hFound).imp_right ?_
      rintro ⟨-, rfl⟩
      exact ⟨w, rfl, by omega, rfl⟩
    · split at hFound
      · exact mem_entries_settle hLeast hLevel hFound
      · exact .inl hFound

theorem leaves_settle (cache : LocationCache) (waiting : Option Recorded) (depth : Nat) :
    (cache.settle waiting depth).leaves = cache.leaves := by
  unfold settle
  split
  · rfl
  · split <;> rfl

theorem leaves_follow (cache : LocationCache) (waiting : Option Recorded) (depth : Nat) :
    (cache.follow waiting depth).leaves = cache.leaves := by
  unfold follow
  split
  · rfl
  · split
    · rfl
    · split
      · exact leaves_settle cache _ depth
      · rfl

/-- Recording an element enters the one that waits, and the element itself if it is a leaf. -/
theorem mem_entries_record (hLeast : ∀ w, waiting = some w → 1 ≤ w.depth) (hDepth : depth ≤ cache.levels)
    (hLevel : 1 ≤ level) (hFound : found ∈ (cache.record waiting ⟨depth, token⟩).1.entries level) :
    found ∈ cache.entries level ∨ ∃ w, waiting = some w ∧ w.depth < cache.levels ∧ found.token = w.token := by
  rw [record_of_le hDepth] at hFound
  dsimp only at hFound
  split at hFound
  · exact mem_entries_follow hLeast hDepth hLevel hFound
  · exact mem_entries_follow hLeast hDepth hLevel hFound

theorem mem_leaves_record {leaf : Nat} (hDepth : depth ≤ cache.levels)
    (hLeaf : leaf ∈ (cache.record waiting ⟨depth, token⟩).1.leaves) : leaf ∈ cache.leaves ∨ leaf = token := by
  rw [record_of_le hDepth] at hLeaf
  dsimp only at hLeaf
  split at hLeaf
  · exact (leaves_follow cache waiting depth) ▸ Array.mem_push.mp hLeaf
  · exact .inl (leaves_follow cache waiting depth ▸ hLeaf)

/-- The cache without its entries, as taking and reclaiming leave it. -/
def cleared (cache : LocationCache) : LocationCache :=
  ⟨Array.replicate cache.upper.size #[], #[]⟩

@[simp] theorem levels_cleared (cache : LocationCache) : cache.cleared.levels = cache.levels := by
  simp [cleared, levels]

theorem reset_levels (cache : LocationCache) : cache.reset cache.levels = cache.cleared :=
  cache.reset_eq cache.levels

theorem cleared_eq_empty {own : CacheLevels} (hLevels : cache.levels = own.count) : cache.cleared = empty own := by
  have hSize : cache.upper.size = own.count - 1 := by
    unfold levels at hLevels
    omega
  rw [cleared, hSize]
  rfl

end LocationCache

namespace Draft
variable {d d' : Draft} {operation : Operation} {levels own : CacheLevels} {history : List Operation}

structure Regular (d : Draft) : Prop where
  levels : ∃ own : CacheLevels, d.cache.levels = own.count
  waiting : ∀ w, d.waiting = some w → 1 ≤ w.depth

/-- An element is the root, or is recorded, or is too deep for the cache or outside it. -/
theorem writeElement_cases (d : Draft) (depth : Int) (offset lengthField : Nat) :
    (d.writeElement depth offset lengthField =
        { d.write ⟨.startTag, depth, offset, lengthField⟩ with root := some d.tokens.size }) ∨
      (d.writeElement depth offset lengthField = d.write ⟨.startTag, depth, offset, lengthField⟩) ∨
      ∃ place : Nat, 1 ≤ place ∧ place ≤ d.cache.levels ∧ d.writeElement depth offset lengthField =
        { d.write ⟨.startTag, depth, offset, lengthField⟩ with
          cache := (d.cache.record d.waiting ⟨place, d.tokens.size⟩).1
          waiting := some ⟨place, d.tokens.size⟩ } := by
  by_cases hRoot : depth = 0
  · exact .inl (if_pos hRoot)
  refine .inr ?_
  by_cases hBelow : 0 < depth
  · obtain ⟨place, rfl⟩ := Int.eq_ofNat_of_zero_le (Int.le_of_lt hBelow)
    rw [Draft.writeElement, recordElement_of_pos (by omega)]
    by_cases hPlace : place ≤ d.cache.levels
    · have hLast : (d.cache.record d.waiting ⟨place, d.tokens.size⟩).2 = some ⟨place, d.tokens.size⟩ :=
        congrArg Prod.snd (LocationCache.record_of_le hPlace)
      exact .inr ⟨place, by omega, hPlace, hLast ▸ rfl⟩
    · have hDeep : d.cache.record d.waiting ⟨place, d.tokens.size⟩ = (d.cache, d.waiting) :=
        if_pos (Nat.not_le.mp hPlace)
      refine .inl ?_
      change { d.write _ with
        cache := (d.cache.record d.waiting ⟨place, d.tokens.size⟩).1
        waiting := (d.cache.record d.waiting ⟨place, d.tokens.size⟩).2 } = _
      rw [hDeep]
      rfl
  · refine .inl ?_
    rw [Draft.writeElement, recordElement, if_neg hRoot, if_neg hBelow]

theorem regular_empty (levels : CacheLevels) : (empty levels).Regular :=
  ⟨(sound_empty levels).levels, nofun⟩

theorem Regular.perform (hRegular : d.Regular) (operation : Operation) : (d.perform operation).Regular := by
  obtain ⟨⟨own, hLevels⟩, hWaiting⟩ := hRegular
  have hCleared : d.cache.cleared.levels = own.count :=
    d.cache.levels_cleared.trans hLevels
  cases operation with
  | write t => exact ⟨⟨own, hLevels⟩, hWaiting⟩
  | writeText kind depth offset length =>
    rw [Draft.perform, writeText_eq]
    exact ⟨⟨own, hLevels⟩, hWaiting⟩
  | writeElement depth offset lengthField =>
    rw [Draft.perform]
    obtain hEq | hEq | ⟨place, hLeast, -, hEq⟩ := writeElement_cases d depth offset lengthField
    · rw [hEq]
      exact ⟨⟨own, hLevels⟩, hWaiting⟩
    · rw [hEq]
      exact ⟨⟨own, hLevels⟩, hWaiting⟩
    · rw [hEq]
      refine ⟨⟨own, LocationCache.levels_record.trans hLevels⟩, ?_⟩
      rintro w ⟨⟩
      exact hLeast
  | finish => exact ⟨⟨own, LocationCache.levels_settle.trans hLevels⟩, hWaiting⟩
  | reset levels =>
    rw [Draft.perform, reset_eq]
    exact regular_empty levels
  | take => exact ⟨⟨own, hCleared⟩, nofun⟩
  | reclaim tokens cache =>
    rw [Draft.perform, reclaim_eq, LocationCache.reset_levels]
    exact ⟨⟨own, hCleared⟩, hWaiting⟩

theorem regular_after (levels : CacheLevels) (history : List Operation) : (after levels history).Regular := by
  induction history using List.reverseRecOn with
  | nil => exact regular_empty levels
  | append_singleton history operation ih =>
    rw [after_append_singleton]
    exact ih.perform operation

/-- The drafts agree but for an element that waits in vain. -/
structure Matches (d d' : Draft) : Prop where
  tokens : d.tokens = d'.tokens
  root : d.root = d'.root
  cache : d.cache = d'.cache
  waiting : d.waiting = d'.waiting ∨ d.IsIdle ∧ d'.IsIdle

theorem Matches.writeElement (hMatches : d.Matches d') (depth : Int) (offset lengthField : Nat) :
    (d.writeElement depth offset lengthField).Matches (d'.writeElement depth offset lengthField) := by
  obtain ⟨tokens, cache, waiting, root⟩ := d
  obtain ⟨_, _, waiting', _⟩ := d'
  obtain ⟨rfl, rfl, rfl, hWaiting⟩ := hMatches
  by_cases hRoot : depth = 0
  · simp only [Draft.writeElement, Draft.write, recordElement, if_pos hRoot]
    exact ⟨rfl, rfl, rfl, hWaiting⟩
  by_cases hBelow : 0 < depth
  · simp only [Draft.writeElement, Draft.write, recordElement, if_neg hRoot, if_pos hBelow]
    by_cases hPlace : depth.toNat ≤ cache.levels
    · obtain rfl | ⟨hIdle, hIdle'⟩ := hWaiting
      · exact ⟨rfl, rfl, rfl, .inl rfl⟩
      · rw [LocationCache.record_of_le hPlace, LocationCache.record_of_le hPlace,
          LocationCache.follow_of_forall_le hIdle hPlace, LocationCache.follow_of_forall_le hIdle' hPlace]
        exact ⟨rfl, rfl, rfl, .inl rfl⟩
    · simp only [LocationCache.record, if_pos (Nat.not_le.mp hPlace)]
      exact ⟨rfl, rfl, rfl, hWaiting⟩
  · simp only [Draft.writeElement, Draft.write, recordElement, if_neg hRoot, if_neg hBelow]
    exact ⟨rfl, rfl, rfl, hWaiting⟩

theorem Matches.perform (hMatches : d.Matches d') (operation : Operation) :
    (d.perform operation).Matches (d'.perform operation) := by
  cases operation with
  | writeElement depth offset lengthField => exact hMatches.writeElement depth offset lengthField
  | reset levels =>
    rw [Draft.perform, Draft.perform, reset_eq, reset_eq]
    exact ⟨rfl, rfl, rfl, .inl rfl⟩
  | write t => exact ⟨congrArg (·.push t) hMatches.tokens, hMatches.root, hMatches.cache, hMatches.waiting⟩
  | writeText kind depth offset length =>
    rw [Draft.perform, Draft.perform, writeText_eq, writeText_eq]
    exact ⟨congrArg (· ++ _) hMatches.tokens, hMatches.root, hMatches.cache, hMatches.waiting⟩
  | take =>
    obtain ⟨-, -, hCache, -⟩ := hMatches
    exact ⟨rfl, rfl, congrArg LocationCache.cleared hCache, .inl rfl⟩
  | reclaim tokens cache =>
    obtain ⟨-, hRoot, hCache, hWaiting⟩ := hMatches
    simp only [Draft.perform, reclaim_eq, LocationCache.reset_levels]
    refine ⟨rfl, hRoot, congrArg LocationCache.cleared hCache, hWaiting.imp_right fun hIdle => ⟨fun w hw => ?_,
      fun w hw => ?_⟩⟩
    · exact d.cache.levels_cleared.symm ▸ hIdle.1 w hw
    · exact d'.cache.levels_cleared.symm ▸ hIdle.2 w hw
  | finish =>
    obtain ⟨hTokens, hRoot, hCache, hWaiting⟩ := hMatches
    refine ⟨hTokens, hRoot, ?_, hWaiting.imp_right fun hIdle => ⟨fun w hw => ?_, fun w hw => ?_⟩⟩
    · change d.cache.settle d.waiting 1 = d'.cache.settle d'.waiting 1
      obtain hSame | ⟨hIdle, hIdle'⟩ := hWaiting
      · rw [hCache, hSame]
      · rw [LocationCache.settle_of_forall_le hIdle, LocationCache.settle_of_forall_le hIdle', hCache]
    · exact LocationCache.levels_settle.symm ▸ hIdle.1 w hw
    · exact LocationCache.levels_settle.symm ▸ hIdle.2 w hw

theorem Matches.indistinct (hMatches : d.Matches d') : d.Indistinct d' := by
  intro later
  induction later generalizing d d' with
  | nil => simp only [List.foldl_nil, observed, hMatches.tokens, hMatches.root, hMatches.cache]
  | cons operation later ih => exact ih (hMatches.perform operation)

theorem reclaim_eq_empty (hLevels : d.cache.levels = own.count) (tokens : Array Token) (cache : LocationCache) :
    d.reclaim tokens cache = { empty own with root := d.root, waiting := d.waiting } := by
  rw [reclaim_eq, LocationCache.reset_levels, LocationCache.cleared_eq_empty hLevels]
  rfl

theorem take_eq (hLevels : d.cache.levels = own.count) : d.take.2 = empty own :=
  congrArg (fun cache => (⟨#[], cache, none, none⟩ : Draft)) (LocationCache.cleared_eq_empty hLevels)

/-- The root shows at once, an element that waits when the document ends. -/
theorem indistinct_reclaim_iff (hRegular : d.Regular) (hLevels : d.cache.levels = own.count)
    (tokens : Array Token) (cache : LocationCache) :
    (d.reclaim tokens cache).Indistinct (empty own) ↔ d.IsBlank := by
  rw [reclaim_eq_empty hLevels]
  constructor
  · intro hAlike
    refine ⟨congrArg (·.2.1) (hAlike []), fun w hw => Nat.not_lt.mp fun hUpper => ?_⟩
    have hFinished : (LocationCache.empty own).settle d.waiting 1 = LocationCache.empty own :=
      congrArg (·.2.2) (hAlike [.finish])
    rw [hw] at hFinished
    exact LocationCache.settle_one_ne (hRegular.waiting w hw) (LocationCache.levels_empty ▸ hLevels ▸ hUpper) hFinished
  · rintro ⟨hRoot, hIdle⟩
    refine Matches.indistinct ⟨rfl, hRoot, rfl, .inr ⟨fun w hw => ?_, nofun⟩⟩
    exact LocationCache.levels_empty.trans hLevels.symm ▸ hIdle w hw

structure Bounded (d : Draft) : Prop where
  root_lt : ∀ root, d.root = some root → root < d.tokens.size
  waiting_lt : ∀ w, d.waiting = some w → w.depth < d.cache.levels → w.token < d.tokens.size
  token_lt : ∀ level, ∀ entry ∈ d.cache.entries (level + 1), entry.token < d.tokens.size
  leaf_lt : ∀ leaf ∈ d.cache.leaves, leaf < d.tokens.size

theorem bounded_empty (levels : CacheLevels) : (empty levels).Bounded :=
  have hSound := (sound_empty levels).cache
  ⟨nofun, nofun, hSound.token_lt, hSound.leaf_lt⟩

theorem Bounded.append (hBounded : d.Bounded) (tokens : List Token) : (d.append tokens).Bounded := by
  have hMore : d.tokens.size ≤ (d.append tokens).tokens.size := by
    rw [Draft.append, Array.size_append]
    exact Nat.le_add_right _ _
  exact
    { root_lt := fun root h => Nat.lt_of_lt_of_le (hBounded.root_lt root h) hMore
      waiting_lt := fun w hw hUpper => Nat.lt_of_lt_of_le (hBounded.waiting_lt w hw hUpper) hMore
      token_lt := fun level entry h => Nat.lt_of_lt_of_le (hBounded.token_lt level entry h) hMore
      leaf_lt := fun leaf h => Nat.lt_of_lt_of_le (hBounded.leaf_lt leaf h) hMore }

theorem Bounded.writeElement (hBounded : d.Bounded) (hRegular : d.Regular) (depth : Int) (offset lengthField : Nat) :
    (d.writeElement depth offset lengthField).Bounded := by
  have hWritten := hBounded.append [⟨.startTag, depth, offset, lengthField⟩]
  have hNew : d.tokens.size < (d.append [⟨.startTag, depth, offset, lengthField⟩]).tokens.size := by
    simp [Draft.append]
  rw [← write_eq] at hWritten hNew
  obtain hEq | hEq | ⟨place, hLeast, hPlace, hEq⟩ := writeElement_cases d depth offset lengthField
  · rw [hEq]
    exact { hWritten with root_lt := fun root hRoot => Option.some.inj hRoot ▸ hNew }
  · rw [hEq]
    exact hWritten
  · rw [hEq]
    refine
      { root_lt := hWritten.root_lt
        waiting_lt := fun w hw _ => Option.some.inj hw ▸ hNew
        token_lt := fun level entry hEntry => ?_
        leaf_lt := fun leaf hLeaf => ?_ }
    · obtain hOld | ⟨w, hw, hUpper, hToken⟩ :=
        LocationCache.mem_entries_record hRegular.waiting hPlace (Nat.le_add_left 1 level) hEntry
      · exact hWritten.token_lt level entry hOld
      · exact hToken ▸ hWritten.waiting_lt w hw hUpper
    · obtain hOld | rfl := LocationCache.mem_leaves_record hPlace hLeaf
      · exact hWritten.leaf_lt leaf hOld
      · exact hNew

/-- Of all operations only reclaiming may leave the name of a token that is gone. -/
theorem Bounded.perform (hBounded : d.Bounded) (hRegular : d.Regular) (operation : Operation)
    (hBlank : ∀ tokens cache, operation = .reclaim tokens cache → d.IsBlank) : (d.perform operation).Bounded := by
  obtain ⟨own, hLevels⟩ := hRegular.levels
  cases operation with
  | write t =>
    rw [Draft.perform, write_eq]
    exact hBounded.append [t]
  | writeText kind depth offset length =>
    rw [Draft.perform, writeText_eq]
    exact hBounded.append _
  | writeElement depth offset lengthField => exact hBounded.writeElement hRegular depth offset lengthField
  | finish =>
    refine
      { root_lt := hBounded.root_lt
        waiting_lt := fun w hw hUpper => hBounded.waiting_lt w hw (LocationCache.levels_settle ▸ hUpper)
        token_lt := fun level entry hEntry => ?_
        leaf_lt := fun leaf hLeaf => hBounded.leaf_lt leaf (d.cache.leaves_settle d.waiting 1 ▸ hLeaf) }
    obtain hOld | ⟨w, hw, hUpper, hToken⟩ :=
      LocationCache.mem_entries_settle hRegular.waiting (Nat.le_add_left 1 level) hEntry
    · exact hBounded.token_lt level entry hOld
    · exact hToken ▸ hBounded.waiting_lt w hw hUpper
  | reset levels =>
    rw [Draft.perform, reset_eq]
    exact bounded_empty levels
  | take =>
    rw [Draft.perform, take_eq hLevels]
    exact bounded_empty own
  | reclaim tokens cache =>
    obtain ⟨hRoot, hIdle⟩ := hBlank tokens cache rfl
    obtain ⟨-, -, hToken, hLeaf⟩ := bounded_empty own
    rw [Draft.perform, reclaim_eq_empty hLevels, hRoot]
    refine ⟨nofun, fun w hw hUpper => ?_, hToken, hLeaf⟩
    exact absurd (hLevels ▸ LocationCache.levels_empty ▸ hUpper : w.depth < d.cache.levels) (Nat.not_lt.mpr (hIdle w hw))

theorem ReclaimsBlank.of_append (hBlank : ReclaimsBlank levels (history ++ [operation])) :
    ReclaimsBlank levels history := by
  rintro earlier tokens cache later rfl
  exact hBlank earlier tokens cache (later ++ [operation]) (by simp)

theorem bounded_after (hBlank : ReclaimsBlank levels history) : (after levels history).Bounded := by
  induction history using List.reverseRecOn with
  | nil => exact bounded_empty levels
  | append_singleton history operation ih =>
    rw [after_append_singleton]
    refine (ih hBlank.of_append).perform (regular_after levels history) operation ?_
    rintro tokens cache rfl
    exact hBlank history tokens cache [] rfl

/-- Whatever has been done before, resetting and taking leave a new draft. Reclaiming leaves one with the old
root and the old element that waits; it passes for a new one just if there is neither. As long as only such
drafts are reclaimed, all tokens that are named are there. -/
theorem emptied_after (levels : CacheLevels) (history : List Operation) :
    ∃ own : CacheLevels, (after levels history).cache.levels = own.count ∧
      (∀ next, (after levels history).reset next = empty next) ∧
      (after levels history).take.2 = empty own ∧
      (∀ tokens cache, (after levels history).reclaim tokens cache =
        { empty own with root := (after levels history).root, waiting := (after levels history).waiting }) ∧
      (∀ tokens cache, ((after levels history).reclaim tokens cache).Indistinct (empty own) ↔
        (after levels history).IsBlank) ∧
      (ReclaimsBlank levels history → (after levels history).Bounded) := by
  have hRegular := regular_after levels history
  obtain ⟨own, hLevels⟩ := hRegular.levels
  exact ⟨own, hLevels, fun next => reset_eq next _, take_eq hLevels, reclaim_eq_empty hLevels,
    indistinct_reclaim_iff hRegular hLevels, bounded_after⟩

/-- A child of the root is reclaimed, with the buffers of an index that has it too: the root stays, the child is
entered, and neither has a token. -/
theorem emptied_after_reclaim :
    ¬((after .three [.writeElement 0 1 1, .writeElement 1 4 1]).reclaim #[⟨.document, -1, 0, 0⟩]
        ⟨#[#[⟨2, none⟩], #[]], #[]⟩).Indistinct (empty .three) ∧
    after .three [.writeElement 0 1 1, .writeElement 1 4 1,
        .reclaim #[⟨.document, -1, 0, 0⟩] ⟨#[#[⟨2, none⟩], #[]], #[]⟩, .finish] =
      ⟨#[], ⟨#[#[⟨1, none⟩], #[]], #[]⟩, some ⟨1, 1⟩, some 0⟩ ∧
    (after .three [.reclaim #[⟨.document, -1, 0, 0⟩] ⟨#[#[⟨2, none⟩], #[]], #[]⟩, .writeElement 0 1 1,
      .writeElement 1 4 1, .finish]).Bounded := by
  obtain ⟨own, hLevels, -, -, hReclaim, hAlike, -⟩ := emptied_after .three [.writeElement 0 1 1, .writeElement 1 4 1]
  obtain ⟨-, -, -, -, -, -, hBounded⟩ :=
    emptied_after .three [.reclaim #[⟨.document, -1, 0, 0⟩] ⟨#[#[⟨2, none⟩], #[]], #[]⟩, .writeElement 0 1 1,
      .writeElement 1 4 1, .finish]
  obtain rfl : own = .three := by
    cases own
    · rfl
    · cases hLevels
  have hStale : ¬(after .three [.writeElement 0 1 1, .writeElement 1 4 1]).IsBlank := fun hBlank => nomatch hBlank.1
  have hFinish : ((after .three [.writeElement 0 1 1, .writeElement 1 4 1]).reclaim #[⟨.document, -1, 0, 0⟩]
      ⟨#[#[⟨2, none⟩], #[]], #[]⟩).finish = ⟨#[], ⟨#[#[⟨1, none⟩], #[]], #[]⟩, some ⟨1, 1⟩, some 0⟩ := by
    rw [hReclaim]
    decide
  refine ⟨fun hSame => hStale ((hAlike _ _).mp hSame), hFinish, hBounded ?_⟩
  intro earlier tokens cache later hHistory
  cases earlier with
  | nil => exact ⟨rfl, nofun⟩
  | cons first earlier =>
    have hMember : Operation.reclaim tokens cache ∈ [.writeElement 0 1 1, .writeElement 1 4 1, .finish] := by
      rw [(List.cons.inj hHistory).2]
      exact List.mem_append_right earlier (List.mem_cons_self ..)
    simp at hMember

end Draft
end XmlIndex
