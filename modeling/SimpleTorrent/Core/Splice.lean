/-
Overwriting a range of a list.

- `splice data off src`: the range of `data` from `off` on that is as long as `src` becomes `src`.
- `writeAt d data off src`: the same for a file, which grows when the range ends past its end; what lies between is
  filled with `d`. A write of nothing does nothing.
- `splice_comm`: disjoint ranges can be overwritten in either order.
- `getElem?_splice`, `getElem?_writeAt_of_mem`, `getElem?_writeAt_of_lt`, `getElem?_writeAt_of_ge`: both operations read
  back, inside the range and outside.

Nothing here refers to a particular program.
-/
import Mathlib.Tactic

namespace SimpleTorrent.Splice

variable {α : Type}

/-! ## Overwriting inside a list -/

def splice (data : List α) (off : ℕ) (src : List α) : List α := data.take off ++ src ++ data.drop (off + src.length)

theorem length_splice {data src : List α} {off : ℕ} (h : off + src.length ≤ data.length) :
    (splice data off src).length = data.length := by
  simp [splice]; omega

theorem getElem?_splice {data src : List α} {off : ℕ} (h : off + src.length ≤ data.length) (i : ℕ) :
    (splice data off src)[i]? = if off ≤ i ∧ i < off + src.length then src[i - off]? else data[i]? := by
  have htake : (data.take off).length = off := by simp; omega
  unfold splice
  rw [List.append_assoc]
  by_cases h1 : i < off
  · rw [if_neg (by omega), List.getElem?_append_left (by omega), List.getElem?_take_of_lt h1]
  · rw [List.getElem?_append_right (by omega), htake]
    by_cases h2 : i < off + src.length
    · rw [if_pos (by omega), List.getElem?_append_left (by omega)]
    · rw [if_neg (by omega), List.getElem?_append_right (by omega), List.getElem?_drop]
      congr 1
      omega

/-- **Disjoint ranges** can be overwritten in either order. -/
theorem splice_comm {data a b : List α} {i j : ℕ} (hi : i + a.length ≤ data.length) (hj : j + b.length ≤ data.length)
    (h : i + a.length ≤ j ∨ j + b.length ≤ i) :
    splice (splice data i a) j b = splice (splice data j b) i a := by
  apply List.ext_getElem?
  intro n
  rw [getElem?_splice (by rw [length_splice hi]; exact hj), getElem?_splice hi,
    getElem?_splice (by rw [length_splice hj]; exact hi), getElem?_splice hj]
  by_cases ha : i ≤ n ∧ n < i + a.length
  · have hb : ¬ (j ≤ n ∧ n < j + b.length) := by omega
    simp only [if_pos ha, if_neg hb]
  · simp only [if_neg ha]

/-! ## Overwriting a file -/

def writeAt (d : α) (data : List α) (off : ℕ) (src : List α) : List α :=
  if src = [] then data else splice (data ++ List.replicate (off + src.length - data.length) d) off src

@[simp] theorem writeAt_nil (d : α) (data : List α) (off : ℕ) : writeAt d data off [] = data := rfl

theorem length_writeAt (d : α) (data : List α) (off : ℕ) {src : List α} (h : src ≠ []) :
    (writeAt d data off src).length = max data.length (off + src.length) := by
  rw [writeAt, if_neg h, length_splice (by simp; omega)]
  simp
  omega

theorem length_writeAt_le (d : α) (data : List α) (off : ℕ) (src : List α) :
    (writeAt d data off src).length ≤ max data.length (off + src.length) := by
  by_cases h : src = []
  · subst h; simp
  · exact (length_writeAt d data off h).le

theorem getElem?_writeAt_of_mem (d : α) (data : List α) {off i : ℕ} {src : List α} (h : off ≤ i)
    (h' : i < off + src.length) : (writeAt d data off src)[i]? = src[i - off]? := by
  have hne : src ≠ [] := by
    intro h0
    subst h0
    exact absurd h' (Nat.not_lt.2 h)
  rw [writeAt, if_neg hne, getElem?_splice (by simp; omega), if_pos ⟨h, h'⟩]

/-- what is there and not overwritten stays -/
theorem getElem?_writeAt_of_lt (d : α) {data : List α} {off i : ℕ} {src : List α} (hi : i < data.length)
    (h : ¬ (off ≤ i ∧ i < off + src.length)) : (writeAt d data off src)[i]? = data[i]? := by
  by_cases hne : src = []
  · rw [hne, writeAt_nil]
  · rw [writeAt, if_neg hne, getElem?_splice (by simp; omega), if_neg h, List.getElem?_append_left hi]

/-- past its end a write changes nothing -/
theorem getElem?_writeAt_of_ge (d : α) (data : List α) {off i : ℕ} {src : List α} (h : off + src.length ≤ i) :
    (writeAt d data off src)[i]? = data[i]? := by
  by_cases hi : i < data.length
  · exact getElem?_writeAt_of_lt d hi fun hc => absurd hc.2 (Nat.not_lt.2 h)
  · have hlen := length_writeAt_le d data off src
    rw [List.getElem?_eq_none (by omega), List.getElem?_eq_none (by omega)]

end SimpleTorrent.Splice
