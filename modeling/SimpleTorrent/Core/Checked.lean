/-
Checked execution: programs over vectors and hash maps whose accesses can fail, and runs of such programs.

A computation returns `Except Fault α`. A fault is anything after which the source program has no defined next state:
an exception out of a checked access, a failed assertion, or undefined behaviour (an unchecked index out of range, a
copy past the end of its target, a zero modulus, a signed overflow, a read of an uninitialised byte). `outOfFuel` marks
a bounded loop that did not end within its bound.

- `mapM_eq_ok`, `mem_mapM`, `nodup_mapM`: a computation for each element of a list.
- `vecAt`, `vecIdx`, `mapAt`: the three kinds of access, with the condition under which each succeeds.
- `getElem?_set_eq_some`, `update_eq_some`, `lookup_erase_eq_some`: what is read after a write.
- `eraseValue`: a map without the entries of one value.
- `toInt`: narrowing of an unsigned value to a 32-bit signed integer.
- `runM`: a run of operations; `runM_eq_error` finds the operation at which it faults. `runM_inv` is the induction rule
  for invariants, `runM_total` the rule for runs that never fault, `runM_reaches` the rule for runs that get somewhere,
  `runM_guarded` the rule for runs whose steps meet a condition on the state they are taken from.
- `Reaches`: some run of permitted operations leads from one state to another. `Reaches.descend`: a goal that can always
  be approached can be reached. `Reaches.lift`: runs of a part are runs of the whole.

Nothing here refers to a particular program.
-/
import Mathlib.Tactic
import Mathlib.Data.List.AList

namespace SimpleTorrent.Checked

/-- why a computation has no defined next state -/
inductive Fault where
  | outOfRange
  | assertion
  | badIndex
  | badCopy
  | zeroModulus
  | intOverflow
  | uninitialised
  | outOfFuel
deriving DecidableEq, Repr

/-! ## Sequencing -/

section Bind

variable {ε α β : Type}

@[simp] theorem ok_bind (a : α) (f : α → Except ε β) : ((Except.ok a : Except ε α) >>= f) = f a := rfl

@[simp] theorem error_bind (e : ε) (f : α → Except ε β) : ((Except.error e : Except ε α) >>= f) = .error e := rfl

@[simp] theorem pure_eq_ok (a : α) : (pure a : Except ε α) = .ok a := rfl

/-- a sequence succeeds exactly when both of its parts do -/
theorem bind_eq_ok {x : Except ε α} {f : α → Except ε β} {b : β} :
    x >>= f = .ok b ↔ ∃ a, x = .ok a ∧ f a = .ok b := by
  cases x with
  | ok a => simp
  | error e => simp

/-- another type of errors -/
@[simp] theorem mapError_eq_ok {ε' : Type} {x : Except ε α} {f : ε → ε'} {a : α} :
    x.mapError f = .ok a ↔ x = .ok a := by
  cases x <;> simp [Except.mapError]

theorem toOption_eq_some {x : Except ε α} {a : α} : x.toOption = some a ↔ x = .ok a := by
  cases x with
  | ok b => exact ⟨fun h => congrArg _ (Option.some.inj h), fun h => congrArg _ (Except.ok.inj h)⟩
  | error e => exact ⟨fun h => by (cases h), fun h => by (cases h)⟩

/-- a computation for each element of a list -/
theorem mapM_eq_ok {f : α → Except ε β} {l : List α} {r : List β} :
    l.mapM f = .ok r ↔ List.Forall₂ (fun a b => f a = .ok b) l r := by
  induction l generalizing r with
  | nil => cases r <;> simp
  | cons a l ih =>
    rw [List.mapM_cons, bind_eq_ok, List.forall₂_cons_left_iff]
    simp only [bind_eq_ok, ih, pure_eq_ok, Except.ok.injEq]
    constructor
    · rintro ⟨b, hb, bs, hbs, rfl⟩
      exact ⟨b, bs, hb, hbs, rfl⟩
    · rintro ⟨b, bs, hb, hbs, rfl⟩
      exact ⟨b, hb, bs, hbs, rfl⟩

theorem exists_mapM_eq_ok {f : α → Except ε β} {l : List α} (h : ∀ a ∈ l, ∃ b, f a = .ok b) :
    ∃ r, l.mapM f = .ok r := by
  induction l with
  | nil => exact ⟨[], rfl⟩
  | cons a l ih =>
    obtain ⟨b, hb⟩ := h a List.mem_cons_self
    obtain ⟨r, hr⟩ := ih fun a' ha' => h a' (List.mem_cons_of_mem a ha')
    exact ⟨b :: r, by rw [List.mapM_cons, hb, hr]; rfl⟩

/-- the results of the computations that succeed, which are all of them -/
theorem mem_mapM {f : α → Except ε β} {l : List α} {r : List β} (h : l.mapM f = .ok r) (b : β) :
    b ∈ r ↔ ∃ a ∈ l, f a = .ok b := by
  induction mapM_eq_ok.1 h with
  | nil => simp
  | cons hab hrest ih => simp [hab, ih (mapM_eq_ok.2 hrest), eq_comm]

/-- the results are different if no two computations agree -/
theorem nodup_mapM {f : α → Except ε β} {l : List α} {r : List β} (h : l.mapM f = .ok r) :
    r.Nodup ↔ l.Pairwise fun a a' => f a ≠ f a' := by
  induction mapM_eq_ok.1 h with
  | nil => simp
  | cons hab hrest ih =>
    rename_i a b l r
    have htail := mapM_eq_ok.2 hrest
    rw [List.nodup_cons, List.pairwise_cons, ih htail, mem_mapM htail]
    simp only [hab, not_exists, not_and, ne_eq, eq_comm]

theorem exists_of_mapM {f : α → Except ε β} {l : List α} {r : List β} (h : l.mapM f = .ok r) {a : α} (ha : a ∈ l) :
    ∃ b, f a = .ok b := by
  induction mapM_eq_ok.1 h with
  | nil => cases ha
  | cons hab hrest ih =>
    rcases List.mem_cons.1 ha with rfl | ha
    · exact ⟨_, hab⟩
    · exact ih (mapM_eq_ok.2 hrest) ha

/-- different results come from different elements -/
theorem mapM_inj {f : α → Except ε β} {l : List α} {r : List β} (h : l.mapM f = .ok r) (hr : r.Nodup) {a a' : α}
    (ha : a ∈ l) (ha' : a' ∈ l) (he : f a = f a') : a = a' := by
  have hsymm : Std.Symm fun a a' => f a ≠ f a' := ⟨fun _ _ hne => hne.symm⟩
  by_contra hne
  exact ((nodup_mapM h).1 hr).forall ha ha' hne he

end Bind

/-! ## Accesses -/

section Access

variable {α κ β : Type}

/-- `v.at(i)`: throws out of range -/
def vecAt (v : List α) (i : ℕ) : Except Fault α :=
  match v[i]? with
  | some a => .ok a
  | none => .error .outOfRange

/-- `v.at(i)` with a signed index: a negative index converts to a huge one -/
def vecAtInt (v : List α) (i : ℤ) : Except Fault α :=
  if 0 ≤ i then vecAt v i.toNat else .error .outOfRange

/-- `v[i]`: unchecked, undefined out of range -/
def vecIdx (v : List α) (i : ℕ) : Except Fault α :=
  match v[i]? with
  | some a => .ok a
  | none => .error .badIndex

/-- `v[i]` with a signed index -/
def vecIdxInt (v : List α) (i : ℤ) : Except Fault α :=
  if 0 ≤ i then vecIdx v i.toNat else .error .badIndex

/-- `m.at(k)`: throws when the key is absent -/
def mapAt [DecidableEq κ] (m : AList fun _ : κ => β) (k : κ) : Except Fault β :=
  match m.lookup k with
  | some b => .ok b
  | none => .error .outOfRange

/-- `assert(b)` -/
def assert (b : Bool) : Except Fault Unit := if b then .ok () else .error .assertion

/-- conversion to a 32-bit `int` -/
def toInt (n : ℕ) : ℤ := (n : ℤ).bmod (2 ^ 32)

/-- `v.resize(n, d)`: cut, or extended with copies of `d` -/
def resize (v : List α) (n : ℕ) (d : α) : List α := v.take n ++ List.replicate (n - v.length) d

@[simp] theorem vecAt_eq_ok {v : List α} {i : ℕ} {a : α} : vecAt v i = .ok a ↔ v[i]? = some a := by
  unfold vecAt; split <;> simp_all

@[simp] theorem vecIdx_eq_ok {v : List α} {i : ℕ} {a : α} : vecIdx v i = .ok a ↔ v[i]? = some a := by
  unfold vecIdx; split <;> simp_all

@[simp] theorem mapAt_eq_ok [DecidableEq κ] {m : AList fun _ : κ => β} {k : κ} {b : β} :
    mapAt m k = .ok b ↔ m.lookup k = some b := by
  unfold mapAt; split <;> simp_all

@[simp] theorem assert_eq_ok {b : Bool} {u : Unit} : assert b = .ok u ↔ b = true := by
  unfold assert; split <;> simp_all

/-- an entry after a write is the one written, or an old one elsewhere -/
theorem getElem?_set_eq_some {v : List α} {i j : ℕ} {a b : α} (h : (v.set i a)[j]? = some b) :
    j = i ∧ b = a ∨ j ≠ i ∧ v[j]? = some b := by
  rw [List.getElem?_set] at h
  split_ifs at h with hij hlt
  · cases h
    exact Or.inl ⟨hij.symm, rfl⟩
  · exact Or.inr ⟨Ne.symm hij, h⟩

/-- the same for a partial function -/
theorem update_eq_some [DecidableEq κ] {f : κ → Option β} {x y : κ} {v : Option β} {b : β}
    (h : Function.update f x v y = some b) : y = x ∧ v = some b ∨ y ≠ x ∧ f y = some b := by
  rw [Function.update_apply] at h
  split_ifs at h with hxy
  · exact Or.inl ⟨hxy, h⟩
  · exact Or.inr ⟨hxy, h⟩

theorem vecAtInt_natCast (v : List α) (i : ℕ) : vecAtInt v (i : ℤ) = vecAt v i := by simp [vecAtInt]

theorem vecIdxInt_natCast (v : List α) (i : ℕ) : vecIdxInt v (i : ℤ) = vecIdx v i := by simp [vecIdxInt]

/-- a value below 2^31 is unchanged by the narrowing -/
theorem toInt_of_lt {n : ℕ} (h : n < 2 ^ 31) : toInt n = n := by
  unfold toInt
  exact Int.bmod_eq_of_le_mul_two (by push_cast; omega) (by push_cast; omega)

/-- a 32-bit value from 2^31 on becomes negative -/
theorem toInt_neg {n : ℕ} (h : 2 ^ 31 ≤ n) (h' : n < 2 ^ 32) : toInt n < 0 := by
  have hmod : (n : ℤ) % (2 ^ 32 : ℕ) = n := Int.emod_eq_of_lt (by omega) (by push_cast; omega)
  unfold toInt
  rw [Int.bmod_neg _ _ (by rw [hmod]; push_cast; omega), hmod]
  push_cast
  omega

@[simp] theorem length_resize (v : List α) (n : ℕ) (d : α) : (resize v n d).length = n := by
  simp [resize]; omega

/-- the entry of a key after an erasure -/
theorem lookup_erase_eq [DecidableEq κ] (m : AList fun _ : κ => β) (k l : κ) :
    (m.erase k).lookup l = if l = k then none else m.lookup l := by
  by_cases hkl : l = k
  · rw [if_pos hkl, hkl]
    exact AList.lookup_erase k m
  · rw [if_neg hkl]
    exact AList.lookup_erase_ne hkl

theorem lookup_erase_eq_some [DecidableEq κ] {m : AList fun _ : κ => β} {k l : κ} {b : β} :
    (m.erase k).lookup l = some b ↔ l ≠ k ∧ m.lookup l = some b := by
  rw [lookup_erase_eq]
  split_ifs with hkl <;> simp [hkl]

/-- erase every entry of a map whose value is `b`, in one pass over its entries -/
def eraseValue [DecidableEq κ] [DecidableEq β] (m : AList fun _ : κ => β) (b : β) : AList fun _ : κ => β :=
  m.entries.foldl (fun m e => if e.2 = b then m.erase e.1 else m) m

theorem lookup_foldl_erase [DecidableEq κ] [DecidableEq β] (l : List (Sigma fun _ : κ => β)) (b : β)
    (m : AList fun _ : κ => β) (k : κ) :
    (l.foldl (fun m e => if e.2 = b then m.erase e.1 else m) m).lookup k =
      if (⟨k, b⟩ : Sigma fun _ : κ => β) ∈ l then none else m.lookup k := by
  induction l generalizing m with
  | nil => simp
  | cons e l ih =>
    rw [List.foldl_cons, ih]
    by_cases hl : (⟨k, b⟩ : Sigma fun _ : κ => β) ∈ l
    · simp [hl]
    · rcases e with ⟨k', b'⟩
      by_cases hb : b' = b
      · subst hb
        by_cases hk : k = k' <;> simp [hl, hk, lookup_erase_eq]
      · have : (⟨k, b⟩ : Sigma fun _ : κ => β) ≠ ⟨k', b'⟩ := by
          intro h; cases h; exact hb rfl
        simp [hl, hb, this]

theorem lookup_eraseValue [DecidableEq κ] [DecidableEq β] (m : AList fun _ : κ => β) (b : β) (k : κ) :
    (eraseValue m b).lookup k = if m.lookup k = some b then none else m.lookup k := by
  unfold eraseValue
  rw [lookup_foldl_erase]
  have hiff : (⟨k, b⟩ : Sigma fun _ : κ => β) ∈ m.entries ↔ m.lookup k = some b := AList.mem_lookup_iff.symm
  simp only [hiff]

end Access

/-! ## Runs -/

section Run

variable {σ ι ε : Type}

/-- a run of operations, stopping at the first fault -/
def runM (step : σ → ι → Except ε σ) (s : σ) (ops : List ι) : Except ε σ := ops.foldlM step s

variable {step : σ → ι → Except ε σ}

@[simp] theorem runM_nil (s : σ) : runM step s [] = .ok s := rfl

@[simp] theorem runM_cons (s : σ) (o : ι) (ops : List ι) :
    runM step s (o :: ops) = step s o >>= fun t => runM step t ops := rfl

theorem runM_append (s : σ) (a b : List ι) :
    runM step s (a ++ b) = runM step s a >>= fun t => runM step t b := by
  simp [runM, List.foldlM_append]

theorem runM_snoc (s : σ) (ops : List ι) (o : ι) :
    runM step s (ops ++ [o]) = runM step s ops >>= fun t => step t o := by
  rw [runM_append]
  congr 1
  funext t
  simp only [runM_cons, runM_nil]
  cases step t o <;> rfl

/-- **Invariants of runs.** A property kept by every legal step that succeeds holds at the end of every legal run. -/
theorem runM_inv {P : ι → Prop} {I : σ → Prop}
    (hstep : ∀ s o s', I s → P o → step s o = .ok s' → I s')
    {s s' : σ} {ops : List ι} (hs : I s) (hops : ∀ o ∈ ops, P o) (h : runM step s ops = .ok s') : I s' := by
  induction ops generalizing s with
  | nil => cases h; exact hs
  | cons o ops ih =>
    rw [runM_cons, bind_eq_ok] at h
    obtain ⟨t, ht, hrest⟩ := h
    exact ih (hstep s o t hs (hops o List.mem_cons_self) ht) (fun o' ho' => hops o' (List.mem_cons_of_mem o ho')) hrest

/-- every step of a run meets a condition on the state it is taken from -/
def Guarded (step : σ → ι → Except ε σ) (P : σ → ι → Prop) : σ → List ι → Prop
  | _, [] => True
  | s, o :: ops => P s o ∧ ∀ t, step s o = .ok t → Guarded step P t ops

theorem Guarded.and_forall {P : σ → ι → Prop} {Q : ι → Prop} {s : σ} {ops : List ι} (h : Guarded step P s ops)
    (hQ : ∀ o ∈ ops, Q o) : Guarded step (fun s o => P s o ∧ Q o) s ops := by
  induction ops generalizing s with
  | nil => trivial
  | cons o ops ih =>
    refine ⟨⟨h.1, hQ o List.mem_cons_self⟩, fun t ht => ?_⟩
    exact ih (h.2 t ht) fun o' ho' => hQ o' (List.mem_cons_of_mem o ho')

/-- **Invariants of guarded runs.** The condition on a step may depend on the state before it. -/
theorem runM_guarded {P : σ → ι → Prop} {I : σ → Prop} (hstep : ∀ s o s', I s → P s o → step s o = .ok s' → I s')
    {s s' : σ} {ops : List ι} (hs : I s) (hops : Guarded step P s ops) (h : runM step s ops = .ok s') : I s' := by
  induction ops generalizing s with
  | nil => cases h; exact hs
  | cons o ops ih =>
    rw [runM_cons, bind_eq_ok] at h
    obtain ⟨t, ht, hrest⟩ := h
    exact ih (hstep s o t hs hops.1 ht) (hops.2 t ht) hrest

/-- **Runs that never fault.** If every legal step from an invariant state succeeds and keeps the invariant, every
legal run succeeds. -/
theorem runM_total {P : ι → Prop} {I : σ → Prop} (hstep : ∀ s o, I s → P o → ∃ s', step s o = .ok s' ∧ I s')
    {s : σ} {ops : List ι} (hs : I s) (hops : ∀ o ∈ ops, P o) : ∃ s', runM step s ops = .ok s' ∧ I s' := by
  induction ops generalizing s with
  | nil => exact ⟨s, rfl, hs⟩
  | cons o ops ih =>
    obtain ⟨t, ht, hit⟩ := hstep s o hs (hops o List.mem_cons_self)
    obtain ⟨u, hu, hiu⟩ := ih hit fun o' ho' => hops o' (List.mem_cons_of_mem o ho')
    exact ⟨u, by rw [runM_cons, ht, ok_bind]; exact hu, hiu⟩

/-- **Runs that reach a goal.** The steps succeed and keep an invariant and the goal, and each step that does not end
at the goal lowers a measure, or raises it by less than its cost. Then a run that is longer than the measure is high and
its steps are costly ends at the goal. -/
theorem runM_reaches (cost : ι → ℕ) {P : ι → Prop} {I G : σ → Prop} {height : σ → ℕ}
    (hstep : ∀ s o, I s → P o → ∃ t, step s o = .ok t ∧ I t ∧ (G s → G t) ∧ (¬ G t → height t < height s + cost o))
    (hzero : ∀ s, I s → height s = 0 → G s) {s : σ} {ops : List ι} (hs : I s) (hops : ∀ o ∈ ops, P o)
    (hlen : G s ∨ height s + (ops.map cost).sum ≤ ops.length) : ∃ t, runM step s ops = .ok t ∧ I t ∧ G t := by
  induction ops generalizing s with
  | nil =>
    rcases hlen with hG | hlen
    · exact ⟨s, rfl, hs, hG⟩
    · exact ⟨s, rfl, hs, hzero s hs (Nat.le_zero.1 hlen)⟩
  | cons o ops ih =>
    obtain ⟨t, ht, hit, hkeep, hlower⟩ := hstep s o hs (hops o List.mem_cons_self)
    have hnext : G t ∨ height t + (ops.map cost).sum ≤ ops.length := by
      by_cases hG : G t
      · exact Or.inl hG
      · rcases hlen with hGs | hlen
        · exact absurd (hkeep hGs) hG
        · have hlt := hlower hG
          rw [List.length_cons, List.map_cons, List.sum_cons] at hlen
          exact Or.inr (by omega)
    obtain ⟨u, hu, hrest⟩ := ih hit (fun o' ho' => hops o' (List.mem_cons_of_mem o ho')) hnext
    exact ⟨u, by rw [runM_cons, ht, ok_bind]; exact hu, hrest⟩

/-- some run of operations that are permitted leads from one state to another -/
def Reaches (step : σ → ι → Except ε σ) (P : ι → Prop) (s t : σ) : Prop := ∃ ops, (∀ o ∈ ops, P o) ∧ runM step s ops = .ok t

namespace Reaches

variable {P : ι → Prop} {s t u : σ}

theorem refl (s : σ) : Reaches step P s s := ⟨[], by simp, rfl⟩

theorem single {o : ι} (ho : P o) (h : step s o = .ok t) : Reaches step P s t :=
  ⟨[o], by simpa using ho, by rw [runM_cons, h, ok_bind, runM_nil]⟩

theorem trans (h : Reaches step P s t) (h' : Reaches step P t u) : Reaches step P s u := by
  obtain ⟨ops, hops, hrun⟩ := h
  obtain ⟨ops', hops', hrun'⟩ := h'
  refine ⟨ops ++ ops', fun o ho => ?_, by rw [runM_append, hrun, ok_bind, hrun']⟩
  rcases List.mem_append.1 ho with ho | ho
  · exact hops o ho
  · exact hops' o ho

end Reaches

/-- a repeated operation that cannot succeed `k` times fails at some point, after successes only -/
theorem runM_replicate_fault {s : σ} {o : ι} {k : ℕ} (h : ∀ t, runM step s (List.replicate k o) ≠ .ok t) :
    ∃ j < k, ∃ t, runM step s (List.replicate j o) = .ok t ∧ ∀ u, step t o ≠ .ok u := by
  induction k with
  | zero => exact absurd rfl (h s)
  | succ k ih =>
    by_cases hk : ∃ t, runM step s (List.replicate k o) = .ok t
    · obtain ⟨t, ht⟩ := hk
      refine ⟨k, Nat.lt_succ_self k, t, ht, fun u hu => h u ?_⟩
      rw [List.replicate_succ', runM_snoc, ht, ok_bind, hu]
    · obtain ⟨j, hj, hrest⟩ := ih fun t ht => hk ⟨t, ht⟩
      exact ⟨j, Nat.lt_succ_of_lt hj, hrest⟩

end Run

end SimpleTorrent.Checked
