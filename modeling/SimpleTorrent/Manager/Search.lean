/-
The two searches of `select_next_block`.

- `findUnstarted_some`, `findUnstarted_none`: the first search finds an unstarted piece that the peer has, and finds
  none only when there is none.
- `pickPiece_some`, `pickPiece_none`: the same for the second search, which goes round the pieces in the buffer from a
  pseudo-random start.
- `findUnstarted_total`, `pickPiece_total`: neither search fails while the bitfield fits the pieces; the second one also
  needs fewer than 2^31 pieces, since its index is an `int`.
-/
import SimpleTorrent.Model.PieceManager

namespace SimpleTorrent

open Checked

namespace PieceManager

/-! ## The search for an unstarted piece -/

section FindUnstarted

variable {pieces : List PieceMetadata} {bitfield : List PeerPieceState} {i : ℕ}

theorem findUnstarted_some {x : ℕ} (h : findUnstarted pieces bitfield i = .ok (some x)) :
    ∃ j p, bitfield[j]? = some .havePiece ∧ pieces[i + j]? = some p ∧ p.state = .notStarted ∧
      x = (i + j) % 2 ^ 32 := by
  induction bitfield generalizing i with
  | nil => simp [findUnstarted] at h
  | cons have_ bitfield ih =>
    rw [findUnstarted, bind_eq_ok] at h
    obtain ⟨p, hp, h⟩ := h
    split_ifs at h with hc
    · cases h
      exact ⟨0, p, by simp [hc.2], by simpa using hp, hc.1, rfl⟩
    · obtain ⟨j, q, hj, hq, hst, hx⟩ := ih h
      exact ⟨j + 1, q, by simpa using hj, by rw [← hq]; congr 1; omega, hst, by rw [hx]; congr 1; omega⟩

theorem findUnstarted_none (h : findUnstarted pieces bitfield i = .ok none) {j : ℕ} {p : PieceMetadata}
    (hj : bitfield[j]? = some .havePiece) (hp : pieces[i + j]? = some p) : p.state ≠ .notStarted := by
  induction bitfield generalizing i j with
  | nil => simp at hj
  | cons have_ bitfield ih =>
    rw [findUnstarted, bind_eq_ok] at h
    obtain ⟨q, hq, h⟩ := h
    split_ifs at h with hc
    · cases h
    cases j with
    | zero =>
      rw [vecAt_eq_ok] at hq
      rw [Nat.add_zero, hq] at hp
      cases hp
      exact fun hst => hc ⟨hst, by simpa using hj⟩
    | succ j => exact ih h (by simpa using hj) (by rw [← hp]; congr 1; omega)

theorem findUnstarted_total (h : i + bitfield.length ≤ pieces.length) :
    ∃ r, findUnstarted pieces bitfield i = .ok r := by
  induction bitfield generalizing i with
  | nil => exact ⟨none, rfl⟩
  | cons have_ bitfield ih =>
    rw [List.length_cons] at h
    have hp : vecAt pieces i = .ok pieces[i] := vecAt_eq_ok.2 (List.getElem?_eq_getElem (by omega))
    rw [findUnstarted, hp, ok_bind]
    split_ifs with hc
    · exact ⟨_, rfl⟩
    · exact ih (by omega)

end FindUnstarted

/-! ## The search round the buffer -/

section PickPiece

variable {pieces : List ℕ} {bitfield : List PeerPieceState}

theorem pickPiece_some {startI i : ℤ} {fuel x : ℕ} (h : pickPiece bitfield pieces startI fuel i = .ok (some x)) :
    x ∈ pieces ∧ bitfield[x]? = some .havePiece := by
  induction fuel generalizing i with
  | zero => simp [pickPiece] at h
  | succ fuel ih =>
    rw [pickPiece, bind_eq_ok] at h
    obtain ⟨y, hy, h⟩ := h
    rw [bind_eq_ok] at h
    obtain ⟨have_, hhave, h⟩ := h
    split_ifs at h with hc
    · cases h
      unfold vecAtInt at hy
      split_ifs at hy
      exact ⟨List.mem_of_getElem? (vecAt_eq_ok.1 hy), by rw [vecAt_eq_ok.1 hhave, hc]⟩
    · cases h
    · exact ih h

theorem pickPiece_neg {startI i : ℤ} (hi : i < 0) (fuel : ℕ) (r : Option ℕ) :
    pickPiece bitfield pieces startI fuel i ≠ .ok r := by
  cases fuel with
  | zero => simp [pickPiece]
  | succ fuel => simp [pickPiece, vecAtInt, Int.not_le.2 hi]

/-- the index after the `d`-th one of the round -/
theorem next_index (start d len : ℕ) :
    ((((start + d) % len : ℕ) : ℤ) + 1).toNat % len = (start + (d + 1)) % len := by
  have htn : ((((start + d) % len : ℕ) : ℤ) + 1).toNat = (start + d) % len + 1 := by omega
  rw [htn, Nat.mod_add_mod, Nat.add_assoc]

/-- the round is back at its start after as many steps as there are pieces, and not earlier -/
theorem round_end {start d len : ℕ} (hstart : start < len) (hd : d < len) :
    (start + (d + 1)) % len = start ↔ d + 1 = len := by
  constructor
  · intro hend
    by_contra hne
    by_cases hw : start + (d + 1) < len
    · rw [Nat.mod_eq_of_lt hw] at hend; omega
    · rw [Nat.mod_eq_sub_mod (by omega), Nat.mod_eq_of_lt (by omega)] at hend; omega
  · rintro rfl
    rw [Nat.add_mod_right, Nat.mod_eq_of_lt hstart]

/-- a search from the `d`-th index after the start on, with the rest of the round as fuel, that finds nothing -/
theorem pickPiece_round_none {start : ℕ} (hlen : pieces.length < 2 ^ 32) (hstart : start < pieces.length)
    {fuel d : ℕ} (hfuel : fuel + d = pieces.length)
    (h : pickPiece bitfield pieces start fuel ((start + d) % pieces.length : ℕ) = .ok none) {e x : ℕ} (hde : d ≤ e)
    (he : e < pieces.length) (hx : pieces[(start + e) % pieces.length]? = some x) : bitfield[x]? ≠ some .havePiece := by
  induction fuel generalizing d with
  | zero => omega
  | succ fuel ih =>
    rw [pickPiece, bind_eq_ok] at h
    obtain ⟨y, hy, h⟩ := h
    rw [bind_eq_ok] at h
    obtain ⟨have_, hhave, h⟩ := h
    rw [vecAtInt_natCast, vecAt_eq_ok] at hy
    rw [vecAt_eq_ok] at hhave
    have hhere : have_ ≠ .havePiece → e = d → bitfield[x]? ≠ some .havePiece := by
      rintro hne rfl
      rw [Option.some.inj (hx.symm.trans hy), hhave]
      simpa using hne
    rw [next_index] at h
    split_ifs at h with hc hmax hend
    · cases h
    · -- the round ends here
      have hn : (start + (d + 1)) % pieces.length < pieces.length := Nat.mod_lt _ (by omega)
      have hd : d + 1 = pieces.length := by
        by_cases hbig : (start + (d + 1)) % pieces.length < 2 ^ 31
        · rw [toInt_of_lt hbig] at hend
          exact (round_end hstart (by omega)).1 (by exact_mod_cast hend)
        · have := toInt_neg (Nat.not_lt.1 hbig) (by omega)
          omega
      exact hhere hc (by omega)
    · have hn : (start + (d + 1)) % pieces.length < pieces.length := Nat.mod_lt _ (by omega)
      rcases Nat.eq_or_lt_of_le hde with hed | hlt
      · exact hhere hc hed.symm
      · by_cases hbig : (start + (d + 1)) % pieces.length < 2 ^ 31
        · rw [toInt_of_lt hbig] at h
          exact ih (by omega) h hlt
        · exact absurd h (pickPiece_neg (toInt_neg (Nat.not_lt.1 hbig) (by omega)) _ _)

/-- **The round is complete**: it ends without a choice only if the peer has none of the pieces. -/
theorem pickPiece_none {start : ℕ} (hlen : pieces.length < 2 ^ 32) (hstart : start < pieces.length)
    (h : pickPiece bitfield pieces (toInt start) pieces.length (toInt start) = .ok none) {x : ℕ} (hx : x ∈ pieces) :
    bitfield[x]? ≠ some .havePiece := by
  have hsmall : start < 2 ^ 31 := by
    by_contra hbig
    exact pickPiece_neg (toInt_neg (Nat.not_lt.1 hbig) (by omega)) _ _ h
  rw [toInt_of_lt hsmall] at h
  obtain ⟨j, hj, rfl⟩ := List.getElem_of_mem hx
  have hround : (start + (j + pieces.length - start) % pieces.length) % pieces.length = j := by
    rw [Nat.add_mod_mod, show start + (j + pieces.length - start) = j + pieces.length by omega, Nat.add_mod_right,
      Nat.mod_eq_of_lt hj]
  refine pickPiece_round_none hlen hstart (Nat.add_zero _) (d := 0)
    (by rw [Nat.add_zero, Nat.mod_eq_of_lt hstart]; exact h) (e := (j + pieces.length - start) % pieces.length)
    (Nat.zero_le _) (Nat.mod_lt _ (by omega)) ?_
  rw [hround]
  exact List.getElem?_eq_getElem hj

theorem pickPiece_round_total {start : ℕ} (hlen : pieces.length < 2 ^ 31) (hstart : start < pieces.length)
    (hb : ∀ x ∈ pieces, x < bitfield.length) {fuel d : ℕ} (hfuel : fuel + d = pieces.length) (h0 : 0 < fuel) :
    ∃ r, pickPiece bitfield pieces start fuel ((start + d) % pieces.length : ℕ) = .ok r := by
  induction fuel generalizing d with
  | zero => omega
  | succ fuel ih =>
    have hi : (start + d) % pieces.length < pieces.length := Nat.mod_lt _ (by omega)
    have hxlt : pieces[(start + d) % pieces.length] < bitfield.length := hb _ (List.getElem_mem hi)
    have h1 : vecAtInt pieces ((start + d) % pieces.length : ℕ) = .ok pieces[(start + d) % pieces.length] := by
      rw [vecAtInt_natCast]; exact vecAt_eq_ok.2 (List.getElem?_eq_getElem hi)
    have h2 := vecAt_eq_ok.2 (List.getElem?_eq_getElem hxlt)
    have hn : (start + (d + 1)) % pieces.length < pieces.length := Nat.mod_lt _ (by omega)
    rw [pickPiece, h1, ok_bind, h2, ok_bind, next_index, toInt_of_lt (by omega)]
    split_ifs with hc hmax hend
    · exact ⟨_, rfl⟩
    · omega
    · exact ⟨_, rfl⟩
    · have hd : d + 1 ≠ pieces.length := fun e =>
        hend (by exact_mod_cast (round_end hstart (by omega : d < pieces.length)).2 e)
      exact ih (by omega) (by omega)

theorem pickPiece_total {start : ℕ} (hlen : pieces.length < 2 ^ 31) (hstart : start < pieces.length)
    (hb : ∀ x ∈ pieces, x < bitfield.length) :
    ∃ r, pickPiece bitfield pieces (toInt start) pieces.length (toInt start) = .ok r := by
  obtain ⟨r, hr⟩ := pickPiece_round_total hlen hstart hb (Nat.add_zero _) (by omega)
  rw [Nat.add_zero, Nat.mod_eq_of_lt hstart] at hr
  rw [toInt_of_lt (by omega)]
  exact ⟨r, hr⟩

end PickPiece

end PieceManager

end SimpleTorrent
