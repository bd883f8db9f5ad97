/-
Iterated compression of a stream in blocks (the Merkle-Damgård construction).

A compression function `f` takes a state and a block of `n` elements to the next state. `absorb` runs it over the whole
blocks of a stream and leaves the rest, shorter than a block, as the residue.

- `absorb_append`: a stream may be cut anywhere; what is left of the first part goes in front of the second.
- `residue_length`: how much is left.
- `chain_append`: over whole blocks the states simply compose.
- `absorb_split`: a stream is the blocks that were absorbed and the residue.
- `absorb_counted`: an object that also counts its compressions has counted the whole blocks.

Nothing here refers to a particular program.
-/
import Mathlib.Tactic

namespace SimpleTorrent.Chaining

variable {σ α : Type} (n : ℕ) (f : σ → List α → σ)

/-- compress the whole blocks of a stream; the second component is what does not fill a block -/
def absorb (s : σ) (xs : List α) : σ × List α :=
  if _h : 0 < n ∧ n ≤ xs.length then absorb (f s (xs.take n)) (xs.drop n) else (s, xs)
termination_by xs.length
decreasing_by
  rw [List.length_drop]
  omega

/-- the state after the whole blocks of a stream -/
def chain (s : σ) (xs : List α) : σ := (absorb n f s xs).1

variable {n f} {s : σ} {xs ys : List α}

theorem absorb_short (h : xs.length < n) : absorb n f s xs = (s, xs) := by
  rw [absorb, dif_neg (by omega)]

@[simp] theorem absorb_nil (hn : 0 < n) : absorb n f s [] = (s, []) := absorb_short hn

theorem absorb_block (hn : 0 < n) {block : List α} (hb : block.length = n) (rest : List α) :
    absorb n f s (block ++ rest) = absorb n f (f s block) rest := by
  have hlong : 0 < n ∧ n ≤ (block ++ rest).length := ⟨hn, by rw [List.length_append]; omega⟩
  rw [absorb, dif_pos hlong, List.take_left' hb, List.drop_left' hb]

/-- a stream is shorter than a block, or starts with one -/
theorem short_or_block (n : ℕ) (xs : List α) :
    xs.length < n ∨ ∃ block rest, xs = block ++ rest ∧ block.length = n := by
  rcases Nat.lt_or_ge xs.length n with h | h
  · exact .inl h
  · exact .inr ⟨xs.take n, xs.drop n, (List.take_append_drop n xs).symm, List.length_take_of_le h⟩

/-- **Block induction.** What holds of every stream shorter than a block, and of a block followed by a stream it holds
of, holds of every stream. -/
theorem block_induction (hn : 0 < n) {P : List α → Prop} (hshort : ∀ xs, xs.length < n → P xs)
    (hblock : ∀ block rest, block.length = n → P rest → P (block ++ rest)) (xs : List α) : P xs := by
  induction hlen : xs.length using Nat.strong_induction_on generalizing xs with
  | _ len ih =>
    rcases short_or_block n xs with hlt | ⟨block, rest, rfl, hb⟩
    · exact hshort xs hlt
    · rw [List.length_append] at hlen
      exact hblock block rest hb (ih rest.length (by omega) rest rfl)

theorem residue_length (hn : 0 < n) (s : σ) (xs : List α) : (absorb n f s xs).2.length = xs.length % n := by
  induction xs using block_induction hn generalizing s with
  | hshort xs h => rw [absorb_short h, Nat.mod_eq_of_lt h]
  | hblock block rest hb ih => rw [absorb_block hn hb, ih, List.length_append, hb, Nat.add_mod_left]

theorem absorb_append (hn : 0 < n) (s : σ) (xs ys : List α) :
    absorb n f s (xs ++ ys) = absorb n f (absorb n f s xs).1 ((absorb n f s xs).2 ++ ys) := by
  induction xs using block_induction hn generalizing s with
  | hshort xs h => rw [absorb_short h]
  | hblock block rest hb ih => rw [List.append_assoc, absorb_block hn hb, ih, ← absorb_block hn hb]

theorem residue_eq_nil (hn : 0 < n) (s : σ) (h : xs.length % n = 0) : (absorb n f s xs).2 = [] :=
  List.eq_nil_of_length_eq_zero ((residue_length hn s xs).trans h)

/-- **Composition.** After whole blocks, the rest of the stream is absorbed from the state they lead to. -/
theorem chain_append (hn : 0 < n) (s : σ) (h : xs.length % n = 0) (ys : List α) :
    chain n f s (xs ++ ys) = chain n f (chain n f s xs) ys := by
  rw [chain, absorb_append hn, residue_eq_nil hn s h, List.nil_append]
  rfl

theorem chain_block (hn : 0 < n) (hxs : xs.length = n) : chain n f s xs = f s xs := by
  have h := absorb_block hn hxs (f := f) (s := s) []
  rw [List.append_nil, absorb_nil hn] at h
  rw [chain, h]

/-- what is absorbed is a whole number of blocks, and the residue is the rest of the stream -/
theorem absorb_split (hn : 0 < n) (s : σ) (xs : List α) :
    ∃ whole, xs = whole ++ (absorb n f s xs).2 ∧ whole.length % n = 0 ∧ chain n f s whole = (absorb n f s xs).1 := by
  induction xs using block_induction hn generalizing s with
  | hshort xs h =>
    rw [absorb_short h]
    exact ⟨[], rfl, Nat.zero_mod n, by rw [chain, absorb_nil hn]⟩
  | hblock block rest hb ih =>
    obtain ⟨whole, hrest, hmod, hchain⟩ := ih (f s block)
    rw [absorb_block hn hb]
    refine ⟨block ++ whole, ?_, ?_, ?_⟩
    · rw [List.append_assoc, ← hrest]
    · rw [List.length_append, hb, Nat.add_mod_left, hmod]
    · rw [chain, absorb_block hn hb, ← hchain, chain]

/-! ## Feeding a stream in pieces -/

/-- one more piece, for an object that keeps a state and a residue -/
def feed (n : ℕ) (f : σ → List α → σ) (p : σ × List α) (piece : List α) : σ × List α := absorb n f p.1 (p.2 ++ piece)

/-! ## Counting the blocks -/

section Counting

variable {κ : Type} (tick : κ → κ)

/-- the compression together with a counter of the blocks -/
def counted (f : σ → List α → σ) (p : σ × κ) (block : List α) : σ × κ := (f p.1 block, tick p.2)

/-- the counter does not disturb the compression, and has been advanced once a block -/
theorem absorb_counted (hn : 0 < n) (s : σ) (k : κ) (xs : List α) :
    absorb n (counted tick f) (s, k) xs =
      (((absorb n f s xs).1, tick^[xs.length / n] k), (absorb n f s xs).2) := by
  induction xs using block_induction hn generalizing s k with
  | hshort xs h => rw [absorb_short h, absorb_short h, Nat.div_eq_of_lt h, Function.iterate_zero_apply]
  | hblock block rest hb ih =>
    have hdiv : (block ++ rest).length / n = rest.length / n + 1 := by
      rw [List.length_append, hb, Nat.add_div_left _ hn]
    rw [absorb_block hn hb, absorb_block hn hb, counted, ih, hdiv, Function.iterate_succ_apply]

end Counting

end SimpleTorrent.Chaining
