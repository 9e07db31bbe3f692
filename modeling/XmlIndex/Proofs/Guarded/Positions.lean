import XmlIndex.Proofs.Guarded.Decoding

/-! # Guarded positions

The line of an offset is found by looking for line feeds in the bytes before it, its column by counting what
stands between the last of them and the offset. Both come to what a walk over the bytes comes to.
-/
namespace XmlIndex
set_option autoImplicit false

namespace Guarded
variable {α : Type}

/-- The number of the last line, and where it begins; the list goes on from a line of that number, which has
begun at `start`, at index `i`. -/
def lastLine (isFeed : α → Bool) : List α → (line start i : Nat) → Nat × Nat
  | [], line, start, _ => (line, start)
  | a :: rest, line, start, i =>
    if isFeed a then lastLine isFeed rest (line + 1) (i + 1) (i + 1) else lastLine isFeed rest line start (i + 1)

def pairs : List UInt8 → List (UInt8 × UInt8)
  | first :: second :: rest => (first, second) :: pairs rest
  | [_] | [] => []

/-- Line and column of an offset; one outside the range counts as the nearest end of it. -/
def position {ε : Type} (c : Cursor) (offset : Nat) : Guarded ε Position := do
  let span ← slice c.doc c.start (max (min offset c.stop) c.start)
  match c.encoding with
  | .utf16 order =>
    let (line, start) := lastLine (fun unit => Position.isLineFeed order unit.1 unit.2) (pairs span.data.toList) 1 0 0
    return ⟨line, (← minus span.size (2 * start)) / 2 + 1⟩
  | .utf8 =>
    let (line, start) := lastLine (· == 0x0A) span.data.toList 1 0 0
    let tail ← slice span start span.size
    return ⟨line, tail.data.toList.countP Position.beginsCharacter + 1⟩
  | _ =>
    let (line, start) := lastLine (· == 0x0A) span.data.toList 1 0 0
    let tail ← slice span start span.size
    return ⟨line, tail.size + 1⟩

def move (isFeed counts : α → Bool) (p : Position) (a : α) : Position :=
  if isFeed a then p.nextLine else if counts a then p.nextColumn else p

variable {isFeed counts : α → Bool}

/-- The walk ends in the last line, as many columns on as items count there. -/
theorem foldl_move {before rest : List α} {line start : Nat} (hStart : start ≤ before.length) :
    (lastLine isFeed rest line start before.length).2 ≤ (before ++ rest).length ∧
      rest.foldl (move isFeed counts) ⟨line, (before.drop start).countP counts + 1⟩ =
        ⟨(lastLine isFeed rest line start before.length).1,
          ((before ++ rest).drop (lastLine isFeed rest line start before.length).2).countP counts + 1⟩ := by
  induction rest generalizing before line start with
  | nil =>
    rw [List.append_nil]
    exact ⟨hStart, rfl⟩
  | cons a rest ih =>
    have hWhole : before ++ a :: rest = (before ++ [a]) ++ rest := List.append_cons ..
    have hLength : (before ++ [a]).length = before.length + 1 := by simp
    rw [List.foldl_cons, hWhole, lastLine]
    by_cases hFeed : isFeed a = true
    · have hNext := @ih (before ++ [a]) (line + 1) (before.length + 1) (by omega)
      rw [← hLength, List.drop_length, List.countP_nil, hLength] at hNext
      rw [if_pos hFeed, move, if_pos hFeed]
      exact hNext
    · have hNext := @ih (before ++ [a]) line start (by omega)
      rw [List.drop_append_of_le_length hStart, List.countP_append, List.countP_singleton, hLength] at hNext
      rw [if_neg hFeed, move, if_neg hFeed]
      by_cases hCounts : counts a = true
      · rw [if_pos hCounts] at hNext ⊢
        rw [Nat.add_right_comm] at hNext
        exact hNext
      · rw [if_neg hCounts] at hNext ⊢
        exact hNext

/-- A walk from the first position over a whole list. -/
theorem foldl_move_first (items : List α) : (lastLine isFeed items 1 0 0).2 ≤ items.length ∧
    items.foldl (move isFeed counts) .first =
      ⟨(lastLine isFeed items 1 0 0).1, (items.drop (lastLine isFeed items 1 0 0).2).countP counts + 1⟩ :=
  @foldl_move α isFeed counts [] items 1 0 (Nat.le_refl 0)

theorem getElem?_eq_data (doc : ByteArray) (i : Nat) : doc[i]? = doc.data.toList[i]? := by
  by_cases hInside : i < doc.size
  · rw [getElem?_pos doc i hInside, ByteArray.getElem_eq_getElem_data, Array.getElem?_toList, getElem?_pos]
  · rw [getElem?_neg doc i hInside, Array.getElem?_toList, getElem?_neg]
    exact hInside

theorem toList_extract (doc : ByteArray) (start stop : Nat) :
    (doc.extract start stop).data.toList = (doc.data.toList.drop start).take (stop - start) := by
  rw [ByteArray.data_extract, Array.toList_extract, List.extract_eq_take_drop]

variable {doc : ByteArray} {count i : Nat}

theorem drop_eq_cons (hInside : i < doc.size) :
    ∃ byte, doc[i]? = some byte ∧ doc.data.toList.drop i = byte :: doc.data.toList.drop (i + 1) := by
  have hLength : i < doc.data.toList.length := hInside
  refine ⟨doc.data.toList[i], ?_, List.drop_eq_getElem_cons hLength⟩
  rw [getElem?_eq_data, List.getElem?_eq_getElem hLength]

theorem afterBytes_eq {counts : UInt8 → Bool} {p : Position} (hFits : i + count ≤ doc.size) :
    Position.afterBytes counts doc count i p =
      ((doc.data.toList.drop i).take count).foldl (move (· == 0x0A) counts) p := by
  induction count generalizing i p with
  | zero => rfl
  | succ count ih =>
    obtain ⟨byte, hByte, hDrop⟩ := drop_eq_cons (by omega : i < doc.size)
    rw [Position.afterBytes, hByte, hDrop, List.take_succ_cons, List.foldl_cons]
    exact ih (by omega)

theorem afterUnits_eq {order : ByteOrder} {p : Position} (hFits : i + 2 * count ≤ doc.size) :
    Position.afterUnits order doc count i p = (pairs ((doc.data.toList.drop i).take (2 * count))).foldl
      (move (fun unit => Position.isLineFeed order unit.1 unit.2) fun _ => true) p := by
  induction count generalizing i p with
  | zero => rfl
  | succ count ih =>
    obtain ⟨first, hFirst, hDrop⟩ := drop_eq_cons (by omega : i < doc.size)
    obtain ⟨second, hSecond, hDrop'⟩ := drop_eq_cons (by omega : i + 1 < doc.size)
    rw [Position.afterUnits, hFirst, hSecond, hDrop, hDrop', Nat.mul_succ, List.take_succ_cons, List.take_succ_cons,
      pairs, List.foldl_cons]
    exact ih (by omega)

theorem pairs_take (bytes : List UInt8) : pairs (bytes.take (2 * (bytes.length / 2))) = pairs bytes := by
  fun_induction pairs bytes with
  | case1 first second rest ih =>
    have hLength : 2 * ((first :: second :: rest).length / 2) = 2 * (rest.length / 2) + 2 := by
      simp only [List.length_cons]
      omega
    rw [hLength, List.take_succ_cons, List.take_succ_cons, pairs, ih]
  | case2 => rw [List.length_singleton, Nat.mul_zero, List.take_zero, pairs]
  | case3 => rfl

theorem length_pairs (bytes : List UInt8) : (pairs bytes).length = bytes.length / 2 := by
  fun_induction pairs bytes with
  | case1 first second rest ih =>
    simp only [List.length_cons, ih]
    omega
  | case2 => rw [List.length_singleton, List.length_nil]
  | case3 => rfl

theorem countP_true (items : List α) : items.countP (fun _ => true) = items.length :=
  List.countP_eq_length.mpr fun _ _ => rfl

theorem slice_rest {ε : Type} {span : ByteArray} {start : Nat} (hStart : start ≤ span.data.toList.length) :
    ∃ tail, (slice span start span.size : Guarded ε ByteArray) = .ok tail ∧
      tail.data.toList = span.data.toList.drop start ∧ tail.size = (span.data.toList.drop start).length := by
  have hRest : (span.extract start span.size).data.toList = span.data.toList.drop start := by
    rw [toList_extract]
    refine List.take_of_length_le ?_
    rw [List.length_drop]
    exact Nat.le_refl _
  refine ⟨_, slice_of_le hStart (Nat.le_refl _), hRest, ?_⟩
  rw [← hRest]
  rfl

/-- Whatever offset is asked for, its position is found within the range. -/
theorem position_eq {ε : Type} {c : Cursor} (hStart : c.start ≤ c.stop) (hStop : c.stop ≤ c.doc.size) (offset : Nat) :
    (position c offset : Guarded ε Position) = .ok (c.position offset) := by
  obtain ⟨count, hCount⟩ : ∃ count, max (min offset c.stop) c.start = c.start + count :=
    ⟨_, (Nat.add_sub_cancel' (Nat.le_max_right _ _)).symm⟩
  have hFits : c.start + count ≤ c.doc.size := by omega
  have hSame : min offset c.stop - c.start = count := by omega
  have hSpan := toList_extract c.doc c.start (c.start + count)
  have hSize : (c.doc.extract c.start (c.start + count)).size = count := by
    rw [ByteArray.size_extract]
    omega
  rw [Nat.add_sub_cancel_left] at hSpan
  rw [position, hCount, slice_of_le (Nat.le_add_right _ _) hFits, ok_bind]
  unfold Cursor.position Position.ofOffset
  rw [hSame]
  generalize c.doc.extract c.start (c.start + count) = span at hSpan hSize
  have hLength : span.data.toList.length = count := hSize
  -- Bytes are counted from the last line feed on, in UTF-8 only those that begin a character.
  have hBytes (counts : UInt8 → Bool) := @afterBytes_eq c.doc count c.start counts .first hFits
  rw [← hSpan] at hBytes
  have hOther : (do
      let tail ← slice span (lastLine (· == 0x0A) span.data.toList 1 0 0).2 span.size
      return (⟨(lastLine (· == 0x0A) span.data.toList 1 0 0).1, tail.size + 1⟩ : Position) : Guarded ε Position) =
        .ok (Position.afterBytes (fun _ => true) c.doc count c.start .first) := by
    obtain ⟨hInside, hWalk⟩ := @foldl_move_first _ (· == 0x0A) (fun _ => true) span.data.toList
    obtain ⟨tail, hTail, -, hTailSize⟩ := @slice_rest ε _ _ hInside
    rw [hTail, hBytes fun _ => true, hWalk, ok_bind, countP_true, hTailSize]
    rfl
  cases hEncoding : c.encoding with
  | utf16 order =>
    obtain ⟨hInside, hWalk⟩ := @foldl_move_first _ (fun unit => Position.isLineFeed order unit.1 unit.2) (fun _ => true)
      (pairs span.data.toList)
    have hUnits := @afterUnits_eq c.doc (count / 2) c.start order .first (by omega)
    have hPairs : pairs ((c.doc.data.toList.drop c.start).take (2 * (count / 2))) = pairs span.data.toList := by
      have hTake := pairs_take span.data.toList
      rw [hLength, hSpan, List.take_take, Nat.min_eq_left (by omega)] at hTake
      rw [hTake, hSpan]
    rw [length_pairs, hLength] at hInside
    rw [hPairs, hWalk, countP_true, List.length_drop, length_pairs, hLength] at hUnits
    dsimp only
    rw [minus_of_le (by omega), ok_bind, hUnits, hSize]
    refine congrArg (fun column => (Except.ok ⟨_, column⟩ : Guarded ε Position)) ?_
    omega
  | utf8 =>
    obtain ⟨hInside, hWalk⟩ := @foldl_move_first _ (· == 0x0A) Position.beginsCharacter span.data.toList
    obtain ⟨tail, hTail, hRest, -⟩ := @slice_rest ε _ _ hInside
    dsimp only
    rw [hTail, hBytes Position.beginsCharacter, hWalk, ok_bind, hRest]
    rfl
  | _ => exact hOther

end Guarded
end XmlIndex
