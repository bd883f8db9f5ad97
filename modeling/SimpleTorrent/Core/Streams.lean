/-
Files laid end to end that may be one file.

Each of the files in `Extents` has a name here, and files of one name are one file: what is written to one of them is
read from the other.

- `writeNamed`: a write at a position, continued in the next file where one ends.
- `Separate`: no two files of one name, except empty ones. `map_writeNamed`: the files can then be written like
  different ones.
- `place`: the file and the offset of a position. `writeAllNamed_traced`: whatever is found in a file was there before,
  or is padding, or was written to a position with that place.
- `count_alias`: what is in a file counts for each of its names.

Nothing here refers to a particular program.
-/
import SimpleTorrent.Core.Extents

namespace SimpleTorrent.Extents

open Splice

variable {α ι : Type}

/-! ## Files that are different -/

section Separate

variable {lens : List ℕ} {names : List ι} {name : ι}

/-- no two files of one name, except empty ones -/
def Separate (lens : List ℕ) (names : List ι) : Prop :=
  (names.zip lens).Pairwise fun a b => a.1 = b.1 → a.2 = 0 ∧ b.2 = 0

instance [DecidableEq ι] (lens : List ℕ) (names : List ι) : Decidable (Separate lens names) :=
  inferInstanceAs (Decidable ((names.zip lens).Pairwise _))

theorem separate_cons {len : ℕ} : Separate (len :: lens) (name :: names) ↔
    (∀ p ∈ names.zip lens, name = p.1 → len = 0 ∧ p.2 = 0) ∧ Separate lens names := List.pairwise_cons

/-- only which files have the same name matters -/
theorem separate_map {κ : Type} {f : ι → κ} (hf : Function.Injective f) :
    Separate lens (names.map f) ↔ Separate lens names := by
  rw [Separate, Separate, List.zip_map_left, List.pairwise_map]
  simp only [Prod.map_fst, Prod.map_snd, id_eq, hf.eq_iff]

/-- two files of one name, of which one at least is not empty -/
theorem exists_alias (h : ¬ Separate lens names) :
    ∃ name m n, [(name, m), (name, n)].Sublist (names.zip lens) ∧ (0 < m ∨ 0 < n) := by
  rw [Separate, List.pairwise_iff_forall_sublist] at h
  push Not at h
  obtain ⟨⟨name, m⟩, ⟨name', n⟩, hsub, rfl, hpos⟩ := h
  exact ⟨_, m, n, hsub, by dsimp only at hpos; omega⟩

/-- **What is in a file counts for each of its names.** -/
theorem count_alias [DecidableEq α] (disk : ι → List α) (b : α) (hsub : [name, name].Sublist names) :
    2 * (disk name).count b ≤ (names.map disk).flatten.count b := by
  have hsum := (hsub.map fun n => (disk n).count b).sum_le_sum (fun _ _ => Nat.zero_le _)
  rw [List.count_flatten, List.map_map]
  simpa [two_mul, Function.comp_def] using hsum

end Separate

/-! ## One disk -/

section Write

variable [DecidableEq ι] (d : α)

/-- write `src` to a file -/
def writeFile (disk : ι → List α) (name : ι) (off : ℕ) (src : List α) : ι → List α :=
  Function.update disk name (writeAt d (disk name) off src)

/-- write `src` at position `off` of files with the full lengths `lens` -/
def writeNamed : List ℕ → List ι → (ι → List α) → ℕ → List α → ι → List α
  | len :: lens, name :: names, disk, off, src =>
    if len ≤ off then writeNamed lens names disk (off - len) src
    else writeNamed lens names (writeFile d disk name off (src.take (len - off))) 0 (src.drop (len - off))
  | _, _, disk, _, _ => disk

/-- writes, each a position and what is written there, oldest first -/
def writeAllNamed (lens : List ℕ) (names : List ι) (disk : ι → List α) (writes : List (ℕ × List α)) : ι → List α :=
  writes.foldl (fun disk w => writeNamed d lens names disk w.1 w.2) disk

theorem writeAllNamed_snoc (lens : List ℕ) (names : List ι) (disk : ι → List α) (writes : List (ℕ × List α))
    (w : ℕ × List α) : writeAllNamed d lens names disk (writes ++ [w]) =
      writeNamed d lens names (writeAllNamed d lens names disk writes) w.1 w.2 := List.foldl_concat ..

variable {lens : List ℕ} {names : List ι} {disk : ι → List α} {off : ℕ} {src : List α} {name : ι}

@[simp] theorem writeFile_self : writeFile d disk name off src name = writeAt d (disk name) off src :=
  Function.update_self ..

theorem writeFile_of_ne {other : ι} (h : other ≠ name) : writeFile d disk name off src other = disk other :=
  Function.update_of_ne h ..

@[simp] theorem writeFile_nil : writeFile d disk name off [] = disk := Function.update_eq_self name disk

theorem writeNamed_nil (lens : List ℕ) (names : List ι) (disk : ι → List α) (off : ℕ) :
    writeNamed d lens names disk off [] = disk := by
  induction lens generalizing names disk off with
  | nil => rw [writeNamed]; simp
  | cons len lens ih =>
    cases names with
    | nil => rfl
    | cons name names => simp only [writeNamed, List.take_nil, List.drop_nil, writeFile_nil, ih, ite_self]

/-- a write that starts in the first file, with the number of bytes that fit there -/
theorem writeNamed_cons {len : ℕ} (hoff : off = 0 ∨ off < len) (lens : List ℕ) (name : ι) (names : List ι)
    (disk : ι → List α) (src : List α) : writeNamed d (len :: lens) (name :: names) disk off src =
      writeNamed d lens names (writeFile d disk name off (src.take (min src.length (len - off)))) 0
        (src.drop (min src.length (len - off))) := by
  rw [writeNamed]
  by_cases hlen : len ≤ off
  · -- only an empty file can start at the position and not contain it
    have hoff0 : off = 0 := by omega
    have hlen0 : len = 0 := by omega
    subst hoff0 hlen0
    rw [if_pos le_rfl, Nat.sub_self, Nat.min_zero, List.take_zero, writeFile_nil, List.drop_zero]
  · rw [if_neg hlen]
    rcases Nat.le_total src.length (len - off) with h | h
    · rw [Nat.min_eq_left h, List.take_of_length_le h, List.take_length, List.drop_of_length_le h, List.drop_length]
    · rw [Nat.min_eq_right h]

/-- a write leaves alone the files before its position -/
theorem writeNamed_skip (hnames : names.length = lens.length) {k : ℕ} (hk : k ≤ lens.length) (off : ℕ)
    (src : List α) : writeNamed d lens names disk ((lens.take k).sum + off) src =
      writeNamed d (lens.drop k) (names.drop k) disk off src := by
  induction k generalizing lens names with
  | zero => rw [List.take_zero, List.sum_nil, Nat.zero_add]; rfl
  | succ k ih =>
    cases lens with
    | nil => cases hk
    | cons len lens =>
      cases names with
      | nil => cases hnames
      | cons name names =>
        rw [List.take_succ_cons, List.sum_cons, Nat.add_assoc, writeNamed, if_pos (Nat.le_add_right len _),
          Nat.add_sub_cancel_left, ih (Nat.succ.inj hnames) (Nat.le_of_succ_le_succ hk)]
        rfl

/-! ## Different files -/

/-- a file that is only there as an empty one is not written to -/
theorem writeNamed_of_empty (h : ∀ p ∈ names.zip lens, name = p.1 → p.2 = 0) :
    writeNamed d lens names disk off src name = disk name := by
  induction lens generalizing names disk off src with
  | nil => rw [writeNamed]; simp
  | cons len lens ih =>
    cases names with
    | nil => rfl
    | cons first names =>
      have hrest : ∀ p ∈ names.zip lens, name = p.1 → p.2 = 0 := fun p hp => h p (List.mem_cons_of_mem _ hp)
      rw [writeNamed]
      by_cases hlen : len ≤ off
      · rw [if_pos hlen, ih hrest]
      · have hne : name ≠ first := fun heq => by
          have hzero := h (first, len) List.mem_cons_self heq
          dsimp only at hzero
          omega
        rw [if_neg hlen, ih hrest, writeFile_of_ne d hne]

/-- **Different files** are written like files of their own. -/
theorem map_writeNamed (hnames : names.length = lens.length) (h : Separate lens names) (disk : ι → List α) (off : ℕ)
    (src : List α) :
    names.map (writeNamed d lens names disk off src) = writeAcross d lens (names.map disk) off src := by
  induction lens generalizing names disk off src with
  | nil =>
    obtain rfl := List.eq_nil_of_length_eq_zero hnames
    rfl
  | cons len lens ih =>
    cases names with
    | nil => cases hnames
    | cons name names =>
      obtain ⟨hfirst, hrest⟩ := separate_cons.1 h
      have hempty : ∀ p ∈ names.zip lens, name = p.1 → p.2 = 0 := fun p hp heq => (hfirst p hp heq).2
      rw [List.map_cons, List.map_cons, writeNamed, writeAcross]
      by_cases hlen : len ≤ off
      · simp only [if_pos hlen]
        rw [writeNamed_of_empty d hempty, ih (Nat.succ.inj hnames) hrest]
      · simp only [if_neg hlen]
        rw [writeNamed_of_empty d hempty, writeFile_self, ih (Nat.succ.inj hnames) hrest]
        -- the name is none of the others
        congr 2
        refine List.map_congr_left fun other hother => writeFile_of_ne d ?_
        rintro rfl
        obtain ⟨i, hi, rfl⟩ := List.mem_iff_getElem.1 hother
        have hi' : i < lens.length := Nat.succ.inj hnames ▸ hi
        have hmem : (names[i], lens[i]) ∈ names.zip lens := by
          rw [List.mem_iff_getElem]
          exact ⟨i, by rw [List.length_zip]; omega, List.getElem_zip⟩
        have hzero := (hfirst _ hmem rfl).1
        omega

theorem map_writeAllNamed (hnames : names.length = lens.length) (h : Separate lens names) (disk : ι → List α)
    (writes : List (ℕ × List α)) :
    names.map (writeAllNamed d lens names disk writes) = writeAll d lens (names.map disk) writes := by
  induction writes generalizing disk with
  | nil => rfl
  | cons w writes ih =>
    rw [writeAll_cons, ← map_writeNamed d hnames h disk]
    exact ih _

end Write

/-! ## Where a write goes -/

/-- the file of a position, and the offset in it -/
def place : List ℕ → List ι → ℕ → Option (ι × ℕ)
  | len :: lens, name :: names, g => if g < len then some (name, g) else place lens names (g - len)
  | _, _, _ => none

/-- a file that is not empty begins at some position -/
theorem exists_place {lens : List ℕ} {names : List ι} {name : ι} {len : ℕ} (h : (name, len) ∈ names.zip lens)
    (hpos : 0 < len) : ∃ g < lens.sum, place lens names g = some (name, 0) := by
  induction lens generalizing names with
  | nil => simp at h
  | cons first lens ih =>
    cases names with
    | nil => cases h
    | cons other names =>
      rw [List.sum_cons]
      rcases List.mem_cons.1 h with heq | h
      · cases heq
        exact ⟨0, by omega, by rw [place, if_pos hpos]⟩
      · obtain ⟨g, hg, hplace⟩ := ih h
        exact ⟨first + g, by omega, by rw [place, if_neg (by omega), Nat.add_sub_cancel_left, hplace]⟩

section Traced

variable [DecidableEq ι] {d b : α} {lens : List ℕ} {names : List ι} {disk : ι → List α} {off i : ℕ} {src : List α}
  {name : ι}

theorem writeAt_traced {data : List α} (h : (writeAt d data off src)[i]? = some b) :
    b = d ∨ data[i]? = some b ∨ ∃ j, off + j = i ∧ src[j]? = some b := by
  by_cases hin : off ≤ i ∧ i < off + src.length
  · rw [getElem?_writeAt_of_mem d data hin.1 hin.2] at h
    exact .inr (.inr ⟨i - off, by omega, h⟩)
  · by_cases hi : i < data.length
    · rw [getElem?_writeAt_of_lt d hi hin] at h
      exact .inr (.inl h)
    · have hne : src ≠ [] := by
        rintro rfl
        rw [writeAt_nil, List.getElem?_eq_none (Nat.not_lt.1 hi)] at h
        cases h
      rw [writeAt, if_neg hne, getElem?_splice (by simp; omega), if_neg hin, List.getElem?_append_right (by omega)] at h
      exact .inl (List.eq_of_mem_replicate (List.mem_of_getElem? h))

/-- **What is found in a file** after a write -/
theorem writeNamed_traced (h : (writeNamed d lens names disk off src name)[i]? = some b) :
    b = d ∨ (disk name)[i]? = some b ∨ ∃ j, src[j]? = some b ∧ place lens names (off + j) = some (name, i) := by
  induction lens generalizing names disk off src with
  | nil =>
    rw [writeNamed] at h
    · exact .inr (.inl h)
    · simp
  | cons len lens ih =>
    cases names with
    | nil => exact .inr (.inl h)
    | cons first names =>
      rw [writeNamed] at h
      by_cases hlen : len ≤ off
      · rw [if_pos hlen] at h
        refine (ih h).imp_right (.imp_right fun hw => ?_)
        obtain ⟨j, hj, hplace⟩ := hw
        exact ⟨j, hj, by rw [place, if_neg (by omega), ← hplace]; congr 1; omega⟩
      · rw [if_neg hlen] at h
        rcases ih h with rfl | hold | ⟨j, hj, hplace⟩
        · exact .inl rfl
        · by_cases heq : name = first
          · subst heq
            rw [writeFile_self] at hold
            refine (writeAt_traced hold).imp_right (.imp_right fun hw => ?_)
            obtain ⟨j, rfl, hj⟩ := hw
            have hjlt := (List.getElem?_eq_some_iff.1 hj).1
            rw [List.length_take] at hjlt
            rw [List.getElem?_take_of_lt (by omega)] at hj
            exact ⟨j, hj, by rw [place, if_pos (by omega)]⟩
          · rw [writeFile_of_ne d heq] at hold
            exact .inr (.inl hold)
        · rw [List.getElem?_drop] at hj
          refine .inr (.inr ⟨len - off + j, hj, ?_⟩)
          rw [place, if_neg (by omega), ← hplace]
          congr 1
          omega

theorem writeAllNamed_traced {writes : List (ℕ × List α)}
    (h : (writeAllNamed d lens names disk writes name)[i]? = some b) :
    b = d ∨ (disk name)[i]? = some b ∨
      ∃ w ∈ writes, ∃ j, w.2[j]? = some b ∧ place lens names (w.1 + j) = some (name, i) := by
  induction writes using List.reverseRecOn with
  | nil => exact .inr (.inl h)
  | append_singleton writes w ih =>
    rw [writeAllNamed_snoc] at h
    rcases writeNamed_traced h with rfl | hold | hnew
    · exact .inl rfl
    · refine (ih hold).imp_right (.imp_right fun hw => ?_)
      obtain ⟨w', hw', hrest⟩ := hw
      exact ⟨w', List.mem_append_left _ hw', hrest⟩
    · exact .inr (.inr ⟨w, List.mem_append_right _ (List.mem_singleton_self w), hnew⟩)

end Traced

end SimpleTorrent.Extents
