/-
Streams of length-prefixed frames.

A frame is a header of `k` elements, which announces a length, and a body of that length. `frames` lists the bodies of
the complete frames at the start of a stream, and ignores an incomplete one at the end.

- `frames_cons`: a complete frame comes first.
- `frames_of_short`, `frames_of_incomplete`: less than a frame yields nothing.

Nothing here refers to a particular program.
-/
import Mathlib.Tactic

namespace SimpleTorrent.Framing

variable {α : Type} (k : ℕ) (len : List α → ℕ)

/-- the bodies of the complete frames -/
def frames (stream : List α) : List (List α) :=
  if _h : 0 < k ∧ k + len (stream.take k) ≤ stream.length then
    (stream.drop k).take (len (stream.take k)) :: frames (stream.drop (k + len (stream.take k)))
  else []
termination_by stream.length
decreasing_by
  rw [List.length_drop]
  omega

variable {k len}

theorem frames_of_short {stream : List α} (h : stream.length < k) : frames k len stream = [] := by
  rw [frames, dif_neg]
  omega

variable {header body rest : List α}

theorem frames_of_incomplete (hh : header.length = k) (hb : body.length < len header) :
    frames k len (header ++ body) = [] := by
  have htake : (header ++ body).take k = header := List.take_left' hh
  rw [frames, htake, dif_neg]
  rw [List.length_append]
  omega

theorem frames_cons (hk : 0 < k) (hh : header.length = k) (hb : body.length = len header) :
    frames k len (header ++ body ++ rest) = body :: frames k len rest := by
  rw [List.append_assoc]
  have htake : (header ++ (body ++ rest)).take k = header := List.take_left' hh
  have hdrop : (header ++ (body ++ rest)).drop k = body ++ rest := List.drop_left' hh
  have hlong : 0 < k ∧ k + len header ≤ (header ++ (body ++ rest)).length := by
    refine ⟨hk, ?_⟩
    simp only [List.length_append]
    omega
  calc frames k len (header ++ (body ++ rest))
      = (body ++ rest).take (len header) :: frames k len ((header ++ (body ++ rest)).drop (k + len header)) := by
        rw [frames, htake, hdrop, dif_pos hlong]
    _ = (body ++ rest).take (len header) :: frames k len ((body ++ rest).drop (len header)) := by
        rw [← List.drop_drop, hdrop]
    _ = body :: frames k len rest := by rw [List.take_left' hb, List.drop_left' hb]

end SimpleTorrent.Framing
