/-
Where a path leads, by its names alone.

A path is a list of steps, one level up or down to a name. A place is what is left of a path when each step down that is
taken back is dropped: so many levels up, and then down. Links are not followed.

- `follow`: the place a path leads to. `follow_append`: two paths, one behind the other, lead to the place that the second
  one leads to from that of the first.
- `Inside`: a place strictly below another one. `inside_andThen_iff`: when a path stays inside the place it starts from.

Nothing here refers to a particular program.
-/
import Mathlib.Tactic

namespace SimpleTorrent.Paths

variable {α : Type}

inductive Step (α : Type) where
  | up
  | down (name : α)
deriving DecidableEq, Repr

/-- some levels up, and then down -/
structure Place (α : Type) where
  ups : ℕ
  names : List α
deriving DecidableEq, Repr

namespace Place

def here : Place α := ⟨0, []⟩

def step (p : Place α) : Step α → Place α
  | .up => if p.names.isEmpty then ⟨p.ups + 1, []⟩ else ⟨p.ups, p.names.dropLast⟩
  | .down name => ⟨p.ups, p.names ++ [name]⟩

/-- the place `q`, seen from `p` -/
def andThen (p q : Place α) : Place α :=
  ⟨p.ups + (q.ups - p.names.length), p.names.take (p.names.length - q.ups) ++ q.names⟩

/-- `q` is strictly below `p` -/
def Inside (p q : Place α) : Prop := q.ups = p.ups ∧ p.names <+: q.names ∧ p.names.length < q.names.length

end Place

open Place

/-- where a path leads -/
def follow (path : List (Step α)) : Place α := path.foldl step here

variable {p q : Place α}

theorem andThen_here (p : Place α) : p.andThen here = p := by
  simp [andThen, here]

/-- what is taken back of `p` after `q` -/
theorem step_andThen (p q : Place α) (s : Step α) : (p.andThen q).step s = p.andThen (q.step s) := by
  cases s with
  | down name => simp [step, andThen]
  | up =>
    by_cases hq : q.names = []
    · by_cases hp : p.names.length ≤ q.ups
      · simp [step, andThen, hq, Nat.sub_eq_zero_of_le hp, Nat.sub_eq_zero_of_le (Nat.le_succ_of_le hp)]
        omega
      · have hne : p.names.take (p.names.length - q.ups) ≠ [] := by
          rw [Ne, List.take_eq_nil_iff, not_or, ← List.length_eq_zero_iff]
          omega
        have hlen : min (p.names.length - q.ups) p.names.length - 1 = p.names.length - (q.ups + 1) := by omega
        simp only [step, andThen, hq, List.append_nil, List.isEmpty_nil, if_true, List.isEmpty_iff, hne, if_false,
          List.dropLast_eq_take, List.length_take, List.take_take, hlen]
        congr 1
        · omega
        · congr 1
          omega
    · simp [step, andThen, hq, List.dropLast_append_of_ne_nil]

theorem foldl_step (path : List (Step α)) (p q : Place α) :
    path.foldl step (p.andThen q) = p.andThen (path.foldl step q) := by
  induction path generalizing q with
  | nil => rfl
  | cons s path ih => rw [List.foldl_cons, step_andThen, ih, List.foldl_cons]

/-- **Two paths**, one behind the other -/
theorem follow_append (a b : List (Step α)) : follow (a ++ b) = (follow a).andThen (follow b) :=
  calc follow (a ++ b) = b.foldl step (follow a) := List.foldl_append
    _ = b.foldl step ((follow a).andThen here) := by rw [andThen_here]
    _ = (follow a).andThen (follow b) := foldl_step b (follow a) here

/-- **Staying inside.** A path that goes up comes down again through the same names, and ends below them. -/
theorem inside_andThen_iff : p.Inside (p.andThen q) ↔
    q.ups ≤ p.names.length ∧ p.names.drop (p.names.length - q.ups) <+: q.names ∧ q.ups < q.names.length := by
  have hsplit := List.take_append_drop (p.names.length - q.ups) p.names
  simp only [Inside, andThen, List.length_append, List.length_take]
  constructor
  · intro h
    obtain ⟨hups, hprefix, hlen⟩ := h
    refine ⟨by omega, ?_, by omega⟩
    nth_rewrite 1 [← hsplit] at hprefix
    exact (List.prefix_append_right_inj _).1 hprefix
  · intro h
    obtain ⟨hups, hprefix, hlen⟩ := h
    refine ⟨by omega, ?_, by omega⟩
    nth_rewrite 1 [← hsplit]
    exact (List.prefix_append_right_inj _).2 hprefix

theorem not_inside_self (p : Place α) : ¬ p.Inside p := fun h => lt_irrefl _ h.2.2

end SimpleTorrent.Paths
