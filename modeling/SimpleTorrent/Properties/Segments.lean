/-
How a piece is split over files.

`Segments lens offset length info` says what the result of `calculate_files_write_info` has to be: ranges that lie in
their files, in increasing file order, and that are, laid end to end, the range of the torrent from `offset` on.

- `splitOverFiles_segments`: the second loop, from any file on.
- `segments_of_range`: the function as a whole, for any range that is not empty and lies within the files. Files of
  length zero may stand anywhere.
-/
import SimpleTorrent.Disk.Refinement

namespace SimpleTorrent

open Checked

/-- the bytes that the segments hold -/
def segmentBytes (info : List WriteInfo) : ℕ := (info.map fun w => w.2.2).sum

/-- the segments of the range of `length` bytes from `offset` on, over files of lengths `lens` -/
structure Segments (lens : List ℕ) (offset length : ℕ) (info : List WriteInfo) : Prop where
  increasing : info.Pairwise fun v w => v.1 < w.1
  inFile : ∀ w ∈ info, ∃ len, lens[w.1]? = some len ∧ w.2.1 + w.2.2 ≤ len
  total : segmentBytes info = length
  /-- each segment starts where those before it end -/
  contiguous : ∀ before w after, info = before ++ w :: after →
    (lens.take w.1).sum + w.2.1 = offset + segmentBytes before

/-- no bytes, no segments -/
theorem Segments.nil (lens : List ℕ) (offset : ℕ) : Segments lens offset 0 [] := by
  refine ⟨List.Pairwise.nil, fun w hw => ?_, rfl, fun before w after h => ?_⟩
  · cases hw
  · exact absurd h.symm (by simp)

/-- one more segment in front, in an earlier file and ending where the others start -/
theorem Segments.cons {lens : List ℕ} {offset length : ℕ} {info : List WriteInfo} {w : WriteInfo} {len : ℕ}
    (h : Segments lens (offset + w.2.2) length info) (hlater : ∀ v ∈ info, w.1 < v.1) (hlen : lens[w.1]? = some len)
    (hfit : w.2.1 + w.2.2 ≤ len) (hstart : (lens.take w.1).sum + w.2.1 = offset) :
    Segments lens offset (w.2.2 + length) (w :: info) := by
  refine ⟨List.pairwise_cons.2 ⟨hlater, h.increasing⟩, ?_, ?_, ?_⟩
  · intro v hv
    rcases List.mem_cons.1 hv with hv | hv
    · exact hv ▸ ⟨len, hlen, hfit⟩
    · exact h.inFile v hv
  · calc segmentBytes (w :: info) = w.2.2 + segmentBytes info := by simp [segmentBytes]
      _ = w.2.2 + length := by rw [h.total]
  · intro before v after heq
    cases before with
    | nil =>
      obtain ⟨rfl, -⟩ := List.cons.inj heq
      exact hstart
    | cons b before =>
      obtain ⟨rfl, hrest⟩ := List.cons.inj heq
      calc (lens.take v.1).sum + v.2.1 = offset + w.2.2 + segmentBytes before := h.contiguous before v after hrest
        _ = offset + segmentBytes (w :: before) := by simp [segmentBytes, Nat.add_assoc]

theorem splitOverFiles_zero (lens : List ℕ) (cur off : ℕ) : splitOverFiles lens cur off 0 = .ok [] := by
  cases lens with
  | nil => rfl
  | cons len lens => rw [splitOverFiles, if_pos rfl]

/-- what is left starts at the beginning of the next file, unless nothing is left -/
theorem Segments.of_next {lens pre : List ℕ} {len start remaining : ℕ} {info : List WriteInfo}
    (hsplit : splitOverFiles lens (pre.length + 1) 0 remaining = .ok info)
    (hseg : Segments (pre ++ [len] ++ lens) ((pre ++ [len]).sum + 0) remaining info)
    (hend : remaining ≠ 0 → start = pre.sum + len) : Segments (pre ++ len :: lens) start remaining info := by
  by_cases h0 : remaining = 0
  · rw [h0, splitOverFiles_zero] at hsplit
    rw [h0, ← Except.ok.inj hsplit]
    exact Segments.nil _ _
  · rw [List.append_assoc, List.singleton_append, List.sum_append, List.sum_singleton, Nat.add_zero] at hseg
    rw [hend h0]
    exact hseg

/-- the second loop, from file number `pre.length` and byte `off` of it on -/
theorem splitOverFiles_segments (lens pre : List ℕ) (off remaining : ℕ) (hoff : ∀ len ∈ lens.head?, off ≤ len)
    (hsum : off + remaining ≤ lens.sum) :
    ∃ info, splitOverFiles lens pre.length off remaining = .ok info ∧
      Segments (pre ++ lens) (pre.sum + off) remaining info ∧ ∀ w ∈ info, pre.length ≤ w.1 := by
  induction lens generalizing pre off remaining with
  | nil =>
    rw [List.sum_nil, Nat.le_zero, Nat.add_eq_zero_iff] at hsum
    rw [hsum.2]
    exact ⟨[], rfl, Segments.nil _ _, fun w hw => absurd hw (by simp)⟩
  | cons len lens ih =>
    by_cases hdone : remaining = 0
    · rw [hdone]
      exact ⟨[], splitOverFiles_zero _ _ _, Segments.nil _ _, fun w hw => absurd hw (by simp)⟩
    · have hle : off ≤ len := hoff len rfl
      rw [List.sum_cons] at hsum
      generalize hn : min remaining (len - off) = n
      have hnr : n ≤ remaining := hn ▸ Nat.min_le_left _ _
      have hnl : off + n ≤ len := by omega
      obtain ⟨info, hsplit, hseg, hlater⟩ := ih (pre ++ [len]) 0 (remaining - n) (fun _ _ => Nat.zero_le _) (by omega)
      rw [List.length_append, List.length_singleton] at hsplit hlater
      refine ⟨(pre.length, off, n) :: info, ?_, ?_, ?_⟩
      · rw [splitOverFiles_cons hdone, hn, hsplit]
        rfl
      · have hnext : Segments (pre ++ len :: lens) (pre.sum + off + n) (remaining - n) info :=
          Segments.of_next hsplit hseg (by omega)
        have hall : remaining = n + (remaining - n) := (Nat.add_sub_cancel' hnr).symm
        rw [hall]
        have hlen : (pre ++ len :: lens)[pre.length]? = some len := by simp
        have hstart : ((pre ++ len :: lens).take pre.length).sum + off = pre.sum + off := by simp
        exact Segments.cons (w := (pre.length, off, n)) hnext (fun w hw => Nat.lt_of_succ_le (hlater w hw)) hlen hnl
          hstart
      · intro w hw
        rcases List.mem_cons.1 hw with hw | hw
        · exact hw ▸ le_rfl
        · exact Nat.le_of_succ_le (hlater w hw)

/-- **Splitting a range over files.** For a range that is not empty and lies within the files, both loops end without
an access outside `file_lengths_`, and their result is the segments of the range. -/
theorem segments_of_range (lens : List ℕ) (offset length : ℕ) (hpos : 1 ≤ length)
    (hsum : offset + length ≤ lens.sum) :
    ∃ info, calculateFilesWriteInfo lens offset length = .ok info ∧ Segments lens offset length info := by
  obtain ⟨k, o, len, rest, hfind, hdrop, ho, hstart⟩ := findFile_spec (by omega : offset < lens.sum) 0
  have hparts : lens.take k ++ lens.drop k = lens := List.take_append_drop k lens
  have hk : (lens.take k).length = k := by
    rw [List.length_take]
    have hrest := congrArg List.length hdrop
    rw [List.length_drop, List.length_cons] at hrest
    omega
  have hleft : (lens.take k).sum + (lens.drop k).sum = lens.sum := by rw [← List.sum_append, hparts]
  obtain ⟨info, hsplit, hseg, -⟩ := splitOverFiles_segments (lens.drop k) (lens.take k) o length
    (by rw [hdrop]; intro len' hlen'; cases hlen'; exact ho.le) (by omega)
  rw [hk] at hsplit
  rw [hparts, hstart] at hseg
  refine ⟨info, ?_, hseg⟩
  rw [calculateFilesWriteInfo, hfind, ok_bind, Nat.zero_add]
  exact hsplit

theorem segments_of_range_three_files : ∃ info, calculateFilesWriteInfo [3, 0, 5] 2 4 = .ok info ∧
    Segments [3, 0, 5] 2 4 info := segments_of_range [3, 0, 5] 2 4 (by decide) (by decide)

/-- an empty file in the middle of a range gets a segment of no bytes -/
example : calculateFilesWriteInfo [3, 0, 5] 2 4 = .ok [(0, 2, 1), (1, 0, 0), (2, 0, 3)] := rfl

end SimpleTorrent
