/-
Runs of a total step function.

`Along step P s ops` says that each step of the run of `ops` from `s` meets the condition `P` on the state it is taken
from.

- `along_iff`: the same about every prefix of the run.
- `foldl_inv`: what every step keeps, a run keeps.
- `foldl_iff_along`: where a step spoils a property exactly if it fails the condition, a run has the property at its end
  exactly if all of its steps meet the condition; `foldl_iff_along_of`: the same under an invariant.

Nothing here refers to a particular program.
-/
import Mathlib.Tactic

namespace SimpleTorrent.Runs

variable {σ ι : Type} (step : σ → ι → σ) (P : σ → ι → Prop)

/-- each step of a run meets a condition on the state it is taken from -/
def Along : σ → List ι → Prop
  | _, [] => True
  | s, o :: ops => P s o ∧ Along (step s o) ops

variable {step P} {s : σ} {ops : List ι}

@[simp] theorem along_nil : Along step P s [] ↔ True := Iff.rfl

@[simp] theorem along_cons {o : ι} : Along step P s (o :: ops) ↔ P s o ∧ Along step P (step s o) ops := Iff.rfl

theorem along_append {a b : List ι} : Along step P s (a ++ b) ↔ Along step P s a ∧ Along step P (a.foldl step s) b := by
  induction a generalizing s with
  | nil => simp
  | cons o a ih => simp only [List.cons_append, along_cons, ih, List.foldl_cons, and_assoc]

theorem along_iff : Along step P s ops ↔ ∀ pre o post, ops = pre ++ o :: post → P (pre.foldl step s) o := by
  constructor
  · intro h pre o post hops
    subst hops
    exact (along_append.1 h).2.1
  · intro h
    induction ops generalizing s with
    | nil => trivial
    | cons o ops ih =>
      refine ⟨h [] o ops rfl, ih ?_⟩
      intro pre o' post hops
      exact h (o :: pre) o' post (by rw [hops, List.cons_append])

theorem Along.imp {Q : σ → ι → Prop} (hPQ : ∀ s o, P s o → Q s o) (h : Along step P s ops) : Along step Q s ops :=
  along_iff.2 fun pre o post hops => hPQ _ o (along_iff.1 h pre o post hops)

/-- **Invariants of runs** -/
theorem foldl_inv {I : σ → Prop} (hstep : ∀ s o, I s → I (step s o)) (hs : I s) (ops : List ι) :
    I (ops.foldl step s) := by
  induction ops generalizing s with
  | nil => exact hs
  | cons o ops ih => exact ih (hstep s o hs)

/-- **Properties that are spoiled once.** Such a property holds at the end of a run exactly if it holds at the start
and no step of the run spoils it. Which steps do may depend on an invariant. -/
theorem foldl_iff_along_of {I J : σ → Prop} (hinv : ∀ s o, J s → J (step s o))
    (hstep : ∀ s o, J s → (I (step s o) ↔ I s ∧ P s o)) (hs : J s) :
    I (ops.foldl step s) ↔ I s ∧ Along step P s ops := by
  induction ops generalizing s with
  | nil => simp
  | cons o ops ih => rw [List.foldl_cons, ih (hinv s o hs), hstep s o hs, and_assoc, along_cons]

theorem foldl_iff_along {I : σ → Prop} (hstep : ∀ s o, I (step s o) ↔ I s ∧ P s o) :
    I (ops.foldl step s) ↔ I s ∧ Along step P s ops :=
  foldl_iff_along_of (J := fun _ => True) (fun _ _ _ => trivial) (fun s o _ => hstep s o) trivial

end SimpleTorrent.Runs
