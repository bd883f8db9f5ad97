/-
Files laid end to end.

Files with given full lengths are read as one address space: position `g` belongs to the first file that the lengths
before it do not use up. A file may still be shorter than its full length.

- `valueAt`: what is at a position, if the file reaches that far.
- `writeAcross`: a write at a position, continued in the next file where one ends.
- `valueAt_writeAcross_of_mem`, `valueAt_writeAcross_of_some`, `valueAt_writeAcross_of_ge`: the write read back, inside
  its range, where something was already, and past its end.
- `valueAt_writeAll`: writes that agree with one content, in any order, leave that content where they reach.
- `getElem?_flatMap_range`: where a block is among blocks of one length.
- `flatten_of_valueAt`, `length_flatten_lt`: what the positions say about the files joined together.

Nothing here refers to a particular program.
-/
import SimpleTorrent.Core.Splice

namespace SimpleTorrent.Extents

open Splice

variable {α : Type}

/-! ## One address space -/

/-- what is at position `g` of files with the full lengths `lens` -/
def valueAt : List ℕ → List (List α) → ℕ → Option α
  | len :: lens, file :: files, g => if g < len then file[g]? else valueAt lens files (g - len)
  | _, _, _ => none

/-- write `src` at position `off` -/
def writeAcross (d : α) : List ℕ → List (List α) → ℕ → List α → List (List α)
  | len :: lens, file :: files, off, src =>
    if len ≤ off then file :: writeAcross d lens files (off - len) src
    else writeAt d file off (src.take (len - off)) :: writeAcross d lens files 0 (src.drop (len - off))
  | _, files, _, _ => files

/-- no file is longer than its full length -/
def Within (lens : List ℕ) (files : List (List α)) : Prop := List.Forall₂ (fun len file => file.length ≤ len) lens files

theorem within_nil (lens : List ℕ) : Within lens (lens.map fun _ => ([] : List α)) := by
  induction lens with
  | nil => exact .nil
  | cons len lens ih => exact .cons (Nat.zero_le len) ih

theorem valueAt_nil (lens : List ℕ) (g : ℕ) : valueAt lens (lens.map fun _ => ([] : List α)) g = none := by
  induction lens generalizing g with
  | nil => rfl
  | cons len lens ih =>
    rw [List.map_cons, valueAt]
    split
    · rfl
    · exact ih _

section Write

variable (d : α)

theorem writeAcross_nil (lens : List ℕ) (files : List (List α)) (off : ℕ) : writeAcross d lens files off [] = files := by
  induction lens generalizing files off with
  | nil => rw [writeAcross]; simp
  | cons len lens ih =>
    cases files with
    | nil => rfl
    | cons file files => simp only [writeAcross, List.take_nil, List.drop_nil, writeAt_nil, ih, ite_self]

theorem length_writeAcross (lens : List ℕ) (files : List (List α)) (off : ℕ) (src : List α) :
    (writeAcross d lens files off src).length = files.length := by
  induction lens generalizing files off src with
  | nil => rw [writeAcross]; simp
  | cons len lens ih =>
    cases files with
    | nil => rfl
    | cons file files =>
      rw [writeAcross]
      split
      · rw [List.length_cons, ih, List.length_cons]
      · rw [List.length_cons, ih, List.length_cons]

/-- a write that starts in the first file, with the number of bytes that fit there -/
theorem writeAcross_cons {len off : ℕ} (hoff : off = 0 ∨ off < len) (lens : List ℕ) (file : List α)
    (files : List (List α)) (src : List α) : writeAcross d (len :: lens) (file :: files) off src =
      writeAt d file off (src.take (min src.length (len - off))) ::
        writeAcross d lens files 0 (src.drop (min src.length (len - off))) := by
  rw [writeAcross]
  by_cases hlen : len ≤ off
  · -- only an empty file can start at the position and not contain it
    have hoff0 : off = 0 := by omega
    have hlen0 : len = 0 := by omega
    subst hoff0 hlen0
    rw [if_pos le_rfl, Nat.sub_self, Nat.min_zero, List.take_zero, writeAt_nil, List.drop_zero]
  · rw [if_neg hlen]
    rcases Nat.le_total src.length (len - off) with h | h
    · rw [Nat.min_eq_left h, List.take_of_length_le h, List.take_length, List.drop_of_length_le h, List.drop_length]
    · rw [Nat.min_eq_right h]

/-- a write leaves alone the files before its position -/
theorem writeAcross_skip {lens : List ℕ} {files : List (List α)} (hfiles : files.length = lens.length) {k : ℕ}
    (hk : k ≤ lens.length) (off : ℕ) (src : List α) :
    writeAcross d lens files ((lens.take k).sum + off) src =
      files.take k ++ writeAcross d (lens.drop k) (files.drop k) off src := by
  induction k generalizing lens files with
  | zero => rw [List.take_zero, List.sum_nil, Nat.zero_add]; rfl
  | succ k ih =>
    cases lens with
    | nil => cases hk
    | cons len lens =>
      cases files with
      | nil => cases hfiles
      | cons file files =>
        rw [List.take_succ_cons, List.sum_cons, Nat.add_assoc, writeAcross, if_pos (Nat.le_add_right len _),
          Nat.add_sub_cancel_left, ih (Nat.succ.inj hfiles) (Nat.le_of_succ_le_succ hk)]
        rfl

theorem Within.writeAcross {lens : List ℕ} {files : List (List α)} (h : Within lens files) (off : ℕ) (src : List α) :
    Within lens (writeAcross d lens files off src) := by
  induction h generalizing off src with
  | nil => exact .nil
  | @cons len file lens files hlen _ ih =>
    rw [Extents.writeAcross]
    split
    · exact .cons hlen (ih _ _)
    · refine .cons ?_ (ih _ _)
      have hle := length_writeAt_le d file off (src.take (len - off))
      have htake := List.length_take_le (len - off) src
      omega

variable {lens : List ℕ} {files : List (List α)} {off g : ℕ} {src : List α}

/-- what was written is there -/
theorem valueAt_writeAcross_of_mem (hfiles : files.length = lens.length) (hg : g < lens.sum) (h : off ≤ g)
    (h' : g < off + src.length) : valueAt lens (writeAcross d lens files off src) g = src[g - off]? := by
  induction lens generalizing files off src g with
  | nil => exact absurd hg (Nat.not_lt_zero g)
  | cons len lens ih =>
    cases files with
    | nil => cases hfiles
    | cons file files =>
      simp only [List.length_cons, Nat.add_right_cancel_iff, List.sum_cons] at hfiles hg
      rw [writeAcross]
      by_cases hoff : len ≤ off
      · rw [if_pos hoff, valueAt, if_neg (by omega), ih hfiles (by omega) (by omega) (by omega)]
        congr 1
        omega
      · rw [if_neg hoff, valueAt]
        by_cases hgl : g < len
        · have htake : g < off + (src.take (len - off)).length := by rw [List.length_take]; omega
          rw [if_pos hgl, getElem?_writeAt_of_mem d file h htake, List.getElem?_take_of_lt (by omega)]
        · rw [if_neg hgl, ih hfiles (by omega) (Nat.zero_le _) (by rw [List.length_drop]; omega), List.getElem?_drop]
          congr 1
          omega

/-- what is there and not overwritten stays -/
theorem valueAt_writeAcross_of_some {b : α} (hb : valueAt lens files g = some b)
    (h : ¬ (off ≤ g ∧ g < off + src.length)) : valueAt lens (writeAcross d lens files off src) g = some b := by
  induction lens generalizing files off src g with
  | nil => cases hb
  | cons len lens ih =>
    cases files with
    | nil => cases hb
    | cons file files =>
      rw [valueAt] at hb
      rw [writeAcross]
      by_cases hgl : g < len
      · rw [if_pos hgl] at hb
        by_cases hoff : len ≤ off
        · rw [if_pos hoff, valueAt, if_pos hgl, hb]
        · have hlt := (List.getElem?_eq_some_iff.1 hb).1
          rw [if_neg hoff, valueAt, if_pos hgl, getElem?_writeAt_of_lt d hlt, hb]
          rw [List.length_take]
          omega
      · rw [if_neg hgl] at hb
        by_cases hoff : len ≤ off
        · rw [if_pos hoff, valueAt, if_neg hgl]
          exact ih hb (by omega)
        · rw [if_neg hoff, valueAt, if_neg hgl]
          apply ih hb
          rw [List.length_drop]
          omega

/-- past its end a write changes nothing -/
theorem valueAt_writeAcross_of_ge (h : off + src.length ≤ g) :
    valueAt lens (writeAcross d lens files off src) g = valueAt lens files g := by
  induction lens generalizing files off src g with
  | nil => rw [writeAcross]; simp
  | cons len lens ih =>
    cases files with
    | nil => rfl
    | cons file files =>
      rw [writeAcross]
      by_cases hoff : len ≤ off
      · rw [if_pos hoff, valueAt, valueAt, ih (by omega)]
      · rw [if_neg hoff, valueAt, valueAt]
        by_cases hgl : g < len
        · rw [if_pos hgl, if_pos hgl, getElem?_writeAt_of_ge]
          rw [List.length_take]
          omega
        · rw [if_neg hgl, if_neg hgl, ih]
          rw [List.length_drop]
          omega

end Write

/-! ## Several writes -/

section Writes

variable (d : α)

/-- writes, each a position and what is written there, oldest first -/
def writeAll (lens : List ℕ) (files : List (List α)) (writes : List (ℕ × List α)) : List (List α) :=
  writes.foldl (fun files w => writeAcross d lens files w.1 w.2) files

@[simp] theorem writeAll_cons (lens : List ℕ) (files : List (List α)) (w : ℕ × List α) (writes : List (ℕ × List α)) :
    writeAll d lens files (w :: writes) = writeAll d lens (writeAcross d lens files w.1 w.2) writes := rfl

theorem writeAll_snoc (lens : List ℕ) (files : List (List α)) (writes : List (ℕ × List α)) (w : ℕ × List α) :
    writeAll d lens files (writes ++ [w]) = writeAcross d lens (writeAll d lens files writes) w.1 w.2 :=
  List.foldl_concat ..

theorem length_writeAll (lens : List ℕ) (files : List (List α)) (writes : List (ℕ × List α)) :
    (writeAll d lens files writes).length = files.length := by
  induction writes generalizing files with
  | nil => rfl
  | cons w writes ih => rw [writeAll_cons, ih, length_writeAcross]

/-- the write is a range of `content` -/
def AgreesWith (content : List α) (w : ℕ × List α) : Prop := ∀ i, i < w.2.length → w.2[i]? = content[w.1 + i]?

variable {lens : List ℕ} {files : List (List α)} {content : List α} {writes : List (ℕ × List α)} {g : ℕ}

theorem Within.writeAll (h : Within lens files) (writes : List (ℕ × List α)) :
    Within lens (writeAll d lens files writes) := by
  induction writes generalizing files with
  | nil => exact h
  | cons w writes ih => exact ih (h.writeAcross d w.1 w.2)

theorem valueAt_writeAll_of_ge (h : ∀ w ∈ writes, w.1 + w.2.length ≤ g) :
    valueAt lens (writeAll d lens files writes) g = valueAt lens files g := by
  induction writes generalizing files with
  | nil => rfl
  | cons w writes ih =>
    rw [writeAll_cons, ih fun w' hw' => h w' (List.mem_cons_of_mem w hw'),
      valueAt_writeAcross_of_ge d (h w List.mem_cons_self)]

/-- a position that has the right value keeps it -/
theorem valueAt_writeAll_of_eq (hfiles : files.length = lens.length) (hg : g < lens.sum) (hlen : g < content.length)
    (hagree : ∀ w ∈ writes, AgreesWith content w) (h : valueAt lens files g = content[g]?) :
    valueAt lens (writeAll d lens files writes) g = content[g]? := by
  induction writes generalizing files with
  | nil => exact h
  | cons w writes ih =>
    rw [writeAll_cons]
    refine ih ((length_writeAcross d lens files w.1 w.2).trans hfiles)
      (fun w' hw' => hagree w' (List.mem_cons_of_mem w hw')) ?_
    by_cases hmem : w.1 ≤ g ∧ g < w.1 + w.2.length
    · rw [valueAt_writeAcross_of_mem d hfiles hg hmem.1 hmem.2, hagree w List.mem_cons_self (g - w.1) (by omega)]
      congr 1
      omega
    · rw [List.getElem?_eq_getElem hlen] at h ⊢
      exact valueAt_writeAcross_of_some d h hmem

/-- **Writes in any order.** Where writes that all agree with `content` reach, `content` is. -/
theorem valueAt_writeAll (hfiles : files.length = lens.length) (hg : g < lens.sum) (hlen : g < content.length)
    (hagree : ∀ w ∈ writes, AgreesWith content w) (h : ∃ w ∈ writes, w.1 ≤ g ∧ g < w.1 + w.2.length) :
    valueAt lens (writeAll d lens files writes) g = content[g]? := by
  induction writes generalizing files with
  | nil =>
    obtain ⟨w, hw, -⟩ := h
    cases hw
  | cons w writes ih =>
    have hfiles' := (length_writeAcross d lens files w.1 w.2).trans hfiles
    have hagree' : ∀ w' ∈ writes, AgreesWith content w' := fun w' hw' => hagree w' (List.mem_cons_of_mem w hw')
    rw [writeAll_cons]
    obtain ⟨w', hw', hle, hlt⟩ := h
    rcases List.mem_cons.1 hw' with rfl | hw'
    · apply valueAt_writeAll_of_eq d hfiles' hg hlen hagree'
      rw [valueAt_writeAcross_of_mem d hfiles hg hle hlt, hagree w' List.mem_cons_self (g - w'.1) (by omega)]
      congr 1
      omega
    · exact ih hfiles' hagree' ⟨w', hw', hle, hlt⟩

end Writes

/-! ## Blocks joined together -/

section Blocks

variable {f : ℕ → List α} {len n : ℕ}

theorem length_flatMap_range (h : ∀ k < n, (f k).length = len) : ((List.range n).flatMap f).length = n * len := by
  induction n with
  | zero => simp
  | succ n ih =>
    calc ((List.range (n + 1)).flatMap f).length
        = ((List.range n).flatMap f).length + (f n).length := by
          rw [List.range_succ, List.flatMap_append, List.length_append, List.flatMap_singleton]
      _ = n * len + len := by rw [ih fun k hk => h k (Nat.lt_succ_of_lt hk), h n (Nat.lt_succ_self n)]
      _ = (n + 1) * len := (Nat.succ_mul n len).symm

/-- block `i` begins at position `i * len` -/
theorem getElem?_flatMap_range {i j : ℕ} (h : ∀ k < i, (f k).length = len) (hi : i < n) (hj : j < (f i).length) :
    ((List.range n).flatMap f)[i * len + j]? = (f i)[j]? := by
  obtain ⟨m, rfl⟩ := Nat.exists_eq_add_of_le (Nat.succ_le_of_lt hi)
  have hlen := length_flatMap_range h
  calc ((List.range (i + 1 + m)).flatMap f)[i * len + j]?
      = (((List.range i).flatMap f ++ f i) ++ ((List.range m).map (i + 1 + ·)).flatMap f)[i * len + j]? := by
        rw [List.range_add, List.flatMap_append, List.range_succ, List.flatMap_append, List.flatMap_singleton]
    _ = ((List.range i).flatMap f ++ f i)[i * len + j]? :=
        List.getElem?_append_left (by rw [List.length_append]; omega)
    _ = (f i)[i * len + j - ((List.range i).flatMap f).length]? := List.getElem?_append_right (by omega)
    _ = (f i)[j]? := by rw [hlen, Nat.add_sub_cancel_left]

end Blocks

/-! ## The files joined together -/

theorem Within.length_flatten_le {lens : List ℕ} {files : List (List α)} (h : Within lens files) :
    files.flatten.length ≤ lens.sum := by
  induction h with
  | nil => exact le_rfl
  | cons hlen _ ih =>
    rw [List.flatten_cons, List.length_append, List.sum_cons]
    exact Nat.add_le_add hlen ih

/-- a missing position makes the whole too short -/
theorem Within.length_flatten_lt {lens : List ℕ} {files : List (List α)} (h : Within lens files) {g : ℕ}
    (hg : g < lens.sum) (hnone : valueAt lens files g = none) : files.flatten.length < lens.sum := by
  induction h generalizing g with
  | nil => exact absurd hg (Nat.not_lt_zero g)
  | @cons len file lens files hlen hrest ih =>
    rw [valueAt] at hnone
    rw [List.flatten_cons, List.length_append, List.sum_cons]
    by_cases hgl : g < len
    · rw [if_pos hgl, List.getElem?_eq_none_iff] at hnone
      have hle := Within.length_flatten_le hrest
      omega
    · rw [if_neg hgl] at hnone
      have hlt := ih (by rw [List.sum_cons] at hg; omega) hnone
      omega

/-- files that have `content` at every position are `content` -/
theorem Within.flatten_of_valueAt {lens : List ℕ} {files : List (List α)} (h : Within lens files) {content : List α}
    (hlen : content.length = lens.sum) (hall : ∀ g < lens.sum, valueAt lens files g = content[g]?) :
    files.flatten = content := by
  induction h generalizing content with
  | nil => exact (List.eq_nil_of_length_eq_zero hlen).symm
  | @cons len file lens files hfile hrest ih =>
    rw [List.sum_cons] at hlen hall
    have hread : ∀ g < len, file[g]? = content[g]? := by
      intro g hg
      have := hall g (by omega)
      rwa [valueAt, if_pos hg] at this
    have hfull : file = content.take len := by
      apply List.ext_getElem?
      intro g
      by_cases hg : g < len
      · rw [hread g hg, List.getElem?_take_of_lt hg]
      · rw [List.getElem?_eq_none (by omega), List.getElem?_eq_none (by rw [List.length_take]; omega)]
    have hdrop : files.flatten = content.drop len := by
      apply ih
      · rw [List.length_drop]; omega
      · intro g hg
        have := hall (len + g) (by omega)
        rw [valueAt, if_neg (by omega), Nat.add_sub_cancel_left] at this
        rw [this, List.getElem?_drop]
    calc (file :: files).flatten = file ++ files.flatten := List.flatten_cons
      _ = content.take len ++ content.drop len := by rw [hfull, hdrop]
      _ = content := List.take_append_drop len content

end SimpleTorrent.Extents
