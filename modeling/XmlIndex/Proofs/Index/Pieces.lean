import Mathlib.Algebra.Order.Floor.Div
import XmlIndex.Proofs.Index.Records
import XmlIndex.Proofs.Lexer.Writing

/-! # Runs in pieces

A run is written as tokens that lie end to end over it. Each is as long as a token can be but for the
last, which has what is left, so there are no more of them than the run needs, and one if it is empty.
Lengths are those of the length field, which is all of the length unless the token is a name.
-/
namespace XmlIndex
set_option autoImplicit false

namespace Token
variable {kind : TokenKind} {depth : Int} {offset length : Nat} {pieces : List Token}

def stop (t : Token) : Nat :=
  t.offset + t.lengthField

/-- The pieces cover a run, and only the last could be longer. -/
structure Tile (kind : TokenKind) (depth : Int) (offset length : Nat) (pieces : List Token) : Prop where
  count : pieces.length = max 1 (length ⌈/⌉ maxLength)
  alike : ∀ t ∈ pieces, t.kind = kind ∧ t.depth = depth
  bounded : ∀ t ∈ pieces, t.lengthField ≤ maxLength
  full : ∀ t ∈ pieces.dropLast, t.lengthField = maxLength
  first : pieces.head?.map Token.offset = some offset
  endToEnd : pieces.IsChain fun t next => next.offset = t.stop
  last : pieces.getLast?.map stop = some (offset + length)
  inside : ∀ t ∈ pieces, offset ≤ t.offset ∧ t.stop ≤ offset + length

theorem tile_of_le (hLength : length ≤ maxLength) : Tile kind depth offset length [⟨kind, depth, offset, length⟩] where
  count := by
    have hOne : length ⌈/⌉ maxLength ≤ 1 := by
      rw [ceilDiv_le_iff_le_mul (by decide), Nat.mul_one]
      exact hLength
    exact (Nat.max_eq_left hOne).symm
  alike := by simp
  bounded := by simpa using hLength
  full := by simp
  first := rfl
  endToEnd := .singleton _
  last := rfl
  inside := by simp [stop]

theorem Tile.ne_nil (hTile : Tile kind depth offset length pieces) : pieces ≠ [] := by
  intro hNil
  have hFirst := hTile.first
  rw [hNil] at hFirst
  cases hFirst

/-- A piece of the greatest length, and then those of the rest of the run. -/
theorem Tile.cons (hRest : Tile kind depth (offset + maxLength) (length - maxLength) pieces)
    (hLong : maxLength < length) : Tile kind depth offset length (⟨kind, depth, offset, maxLength⟩ :: pieces) where
  count := by
    rw [List.length_cons, hRest.count, Nat.ceilDiv_eq_add_pred_div, Nat.ceilDiv_eq_add_pred_div]
    unfold maxLength at *
    omega
  alike := List.forall_mem_cons.mpr ⟨⟨rfl, rfl⟩, hRest.alike⟩
  bounded := List.forall_mem_cons.mpr ⟨Nat.le_refl _, hRest.bounded⟩
  full := by
    rw [List.dropLast_cons_of_ne_nil hRest.ne_nil]
    exact List.forall_mem_cons.mpr ⟨rfl, hRest.full⟩
  first := rfl
  endToEnd := by
    cases pieces with
    | nil => exact .singleton _
    | cons next more => exact .cons_cons (Option.some.inj hRest.first) hRest.endToEnd
  last := by
    have hEnd : offset + maxLength + (length - maxLength) = offset + length := by omega
    rw [List.getLast?_cons_of_ne_nil hRest.ne_nil, hRest.last, hEnd]
  inside := by
    refine List.forall_mem_cons.mpr ⟨⟨Nat.le_refl _, Nat.add_le_add_left (Nat.le_of_lt hLong) _⟩, ?_⟩
    intro t ht
    have hInside := hRest.inside t ht
    omega

theorem Tile.storable (hTile : Tile kind depth offset length pieces) (hFits : offset + length < 0x100000000)
    (hLeast : -1 ≤ depth) (hGreatest : depth ≤ maxDepth) : ∀ t ∈ pieces, t.Storable := by
  intro t ht
  obtain ⟨-, hDepth⟩ := hTile.alike t ht
  have hStop := (hTile.inside t ht).2
  have hOffset : t.offset < 0x100000000 := by
    unfold stop at hStop
    omega
  exact ⟨hDepth ▸ hLeast, hDepth ▸ hGreatest, hTile.bounded t ht, hOffset⟩

end Token

namespace Draft
open Token

/-- Each round of the loop writes a piece of the greatest length, the last one what is left. -/
theorem exists_tile (d : Draft) (kind : TokenKind) (depth : Int) (offset length : Nat) :
    ∃ pieces, Tile kind depth offset length pieces ∧ d.writeText kind depth offset length = d.append pieces := by
  fun_induction writeText d kind depth offset length with
  | case1 d offset length hLong ih =>
    obtain ⟨pieces, hTile, hWritten⟩ := ih
    refine ⟨_, hTile.cons hLong, ?_⟩
    rw [hWritten, write_eq, append_append]
    rfl
  | case2 d offset length hShort => exact ⟨_, tile_of_le (Nat.not_lt.mp hShort), write_eq⟩

/-- A run is written in pieces that cover it, after all that was written before; nothing else of the draft
changes. As long as the run ends at a place that can be stored, so does each piece, and its record holds it. -/
theorem writeText_tiles (d : Draft) (kind : TokenKind) (depth : Int) {offset length : Nat}
    (hFits : offset + length < 0x100000000) :
    ∃ pieces, Tile kind depth offset length pieces ∧
      d.writeText kind depth offset length = { d with tokens := d.tokens ++ pieces.toArray } ∧
      (∀ t ∈ pieces, t.stop < 0x100000000) ∧
      (-1 ≤ depth → depth ≤ maxDepth → ∀ t ∈ pieces, unpack? t.pack = some t) := by
  obtain ⟨pieces, hTile, hWritten⟩ := exists_tile d kind depth offset length
  refine ⟨pieces, hTile, hWritten, ?_, ?_⟩
  · intro t ht
    exact Nat.lt_of_le_of_lt (hTile.inside t ht).2 hFits
  · intro hLeast hGreatest t ht
    exact unpack?_pack (hTile.storable hFits hLeast hGreatest t ht)

/-- A run of two million characters is written in two pieces. -/
theorem writeText_twoPieces : 10 + 2000000 < 0x100000000 ∧
    (empty .three).writeText .characterData 1 10 2000000 =
      { empty .three with tokens := #[⟨.characterData, 1, 10, 1048575⟩, ⟨.characterData, 1, 1048585, 951425⟩] } := by
  refine ⟨by decide, ?_⟩
  obtain ⟨pieces, hTile, hWritten, -⟩ :=
    writeText_tiles (empty .three) .characterData 1 (by decide : 10 + 2000000 < 0x100000000)
  have hCount : pieces.length = 2 := hTile.count
  obtain ⟨⟨kind, depth, offset, lengthField⟩, ⟨kind', depth', offset', lengthField'⟩, rfl⟩ := List.length_eq_two.mp hCount
  obtain ⟨rfl, rfl⟩ : kind = .characterData ∧ depth = 1 := hTile.alike _ (List.mem_cons_self ..)
  obtain ⟨rfl, rfl⟩ : kind' = .characterData ∧ depth' = 1 :=
    hTile.alike _ (List.mem_cons_of_mem _ (List.mem_cons_self ..))
  obtain rfl : offset = 10 := Option.some.inj hTile.first
  obtain rfl : lengthField = 1048575 := hTile.full _ (List.mem_cons_self ..)
  obtain rfl : offset' = 1048585 := (List.isChain_cons_cons.mp hTile.endToEnd).1
  have hLast : 1048585 + lengthField' = 10 + 2000000 := Option.some.inj hTile.last
  obtain rfl : lengthField' = 951425 := by omega
  exact hWritten

end Draft
end XmlIndex
