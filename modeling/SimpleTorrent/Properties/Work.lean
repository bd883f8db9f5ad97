/-
What is left to do in a store.

Blocks are missing, pieces are poisoned by wrong blocks, and pieces are stale. `work` weighs these. A choice and a
request add nothing to it, a right block leaves less, and a wrong one adds a fixed amount at most.

- `Gains`: there is less to do, or as much and nothing was given up. `Choice.gains`, `Gains.retrieve`: choices and
  requests gain.
- `deliver_outcome`: what a block that arrives does to each of the three. `deliver_work_le`, `deliver_work_lt`: and to
  the whole.
-/
import SimpleTorrent.Manager.Linked
import SimpleTorrent.Properties.Progress
import SimpleTorrent.Properties.Reassembly

namespace SimpleTorrent

open Checked Buffer Splice Store

/-! ## What is still to arrive -/

namespace Store

variable {ι π : Type} {L : Layout ι} {s t u : Store ι π} {x : ι} {k : ℕ} {sl : Slot}

/-- the blocks still to arrive, each with its piece -/
def Missing (L : Layout ι) (s : Store ι π) : Set (Σ _ : ι, ℕ) :=
  {b | s.state b.1 ≠ none ∧ s.state b.1 ≠ some .completed ∧ b.2 < L.blocks b.1 ∧
    ∀ sl, s.slot b.1 = some sl → sl.blocks[b.2]? ≠ some .haveBlock}

/-- the open pieces of which some block that has arrived is wrong -/
def Poisoned (L : Layout ι) (T : ι → Bytes) (s : Store ι π) : Set ι :=
  {x | ∃ sl, s.slot x = some sl ∧ ¬ SlotFilled L T x sl}

/-- what has to be done: a poisoned piece is thrown away and fetched again, a block arrives, a stale piece is closed -/
noncomputable def work (L : Layout ι) (T : ι → Bytes) (K : ℕ) (s : Store ι π) : ℕ :=
  K * (s.Poisoned L T).ncard + 2 * (s.Missing L).ncard + s.Stale.ncard

/-- what is finite in a store -/
structure Bounded (L : Layout ι) (T : ι → Bytes) (s : Store ι π) : Prop where
  missing : (s.Missing L).Finite
  stale : s.Stale.Finite
  poisoned : (s.Poisoned L T).Finite

/-- less is to be done, or the same blocks are missing and no piece has been given up -/
def Gains (L : Layout ι) (T : ι → Bytes) (K : ℕ) (s t : Store ι π) : Prop :=
  t.work L T K < s.work L T K ∨ t.work L T K ≤ s.work L T K ∧ t.Missing L = s.Missing L ∧
    ∀ x, t.state x = some .notStarted → s.state x = some .notStarted

variable {T : ι → Bytes} {K : ℕ}

theorem Gains.work_le (h : Gains L T K s t) : t.work L T K ≤ s.work L T K := by
  rcases h with h | ⟨h, -⟩
  · exact h.le
  · exact h

theorem Gains.trans (h₁ : Gains L T K s t) (h₂ : Gains L T K t u) : Gains L T K s u := by
  rcases h₁ with h | ⟨hle, hmiss, hstart⟩
  · exact Or.inl (lt_of_le_of_lt h₂.work_le h)
  · rcases h₂ with h | ⟨hle', hmiss', hstart'⟩
    · exact Or.inl (lt_of_lt_of_le h hle)
    · exact Or.inr ⟨hle'.trans hle, hmiss'.trans hmiss, fun x hx => hstart x (hstart' x hx)⟩

/-- pieces and slots are as before -/
theorem Gains.of_eq (hst : t.state = s.state) (hsl : t.slot = s.slot) : Gains L T K s t := by
  have hm : t.Missing L = s.Missing L := by simp only [Missing, hst, hsl]
  have hstale : t.Stale = s.Stale := by simp only [Stale, hst, hsl]
  have hp : t.Poisoned L T = s.Poisoned L T := by simp only [Poisoned, hsl]
  exact Or.inr ⟨by rw [work, work, hm, hstale, hp], hm, fun x hx => by rwa [hst] at hx⟩

/-! ## Changes to one piece -/

/-- `t` differs from `s` in piece `x` at most -/
structure OnlyAt (x : ι) (s t : Store ι π) : Prop where
  state : ∀ y, y ≠ x → t.state y = s.state y
  slot : ∀ y, y ≠ x → t.slot y = s.slot y

namespace OnlyAt

theorem missing_iff (h : OnlyAt x s t) {y : ι} (hy : y ≠ x) : ⟨y, k⟩ ∈ t.Missing L ↔ ⟨y, k⟩ ∈ s.Missing L := by
  simp only [Missing, Set.mem_ofPred_eq, h.state y hy, h.slot y hy]

theorem stale_iff (h : OnlyAt x s t) {y : ι} (hy : y ≠ x) : y ∈ t.Stale ↔ y ∈ s.Stale := by
  simp only [Stale, Set.mem_ofPred_eq, h.state y hy, h.slot y hy]

theorem poisoned_iff (h : OnlyAt x s t) {y : ι} (hy : y ≠ x) : y ∈ t.Poisoned L T ↔ y ∈ s.Poisoned L T := by
  simp only [Poisoned, Set.mem_ofPred_eq, h.slot y hy]

theorem stale_subset_of (h : OnlyAt x s t) (hx : x ∉ t.Stale) : t.Stale ⊆ s.Stale := by
  intro y hy
  refine (h.stale_iff ?_).1 hy
  rintro rfl
  exact hx hy

variable [DecidableEq ι]

theorem missing_subset (h : OnlyAt x s t) (hx : ∀ k, ⟨x, k⟩ ∈ t.Missing L → ⟨x, k⟩ ∈ s.Missing L) :
    t.Missing L ⊆ s.Missing L := by
  rintro ⟨y, k⟩ hb
  by_cases hyx : y = x
  · subst hyx
    exact hx k hb
  · exact (h.missing_iff hyx).1 hb

theorem stale_subset (h : OnlyAt x s t) : t.Stale ⊆ insert x s.Stale := by
  intro y hy
  by_cases hyx : y = x
  · exact Set.mem_insert_iff.2 (Or.inl hyx)
  · exact Set.mem_insert_of_mem x ((h.stale_iff hyx).1 hy)

theorem poisoned_subset (h : OnlyAt x s t) : t.Poisoned L T ⊆ insert x (s.Poisoned L T) := by
  intro y hy
  by_cases hyx : y = x
  · exact Set.mem_insert_iff.2 (Or.inl hyx)
  · exact Set.mem_insert_of_mem x ((h.poisoned_iff hyx).1 hy)

theorem poisoned_subset_of (h : OnlyAt x s t) (hx : x ∈ t.Poisoned L T → x ∈ s.Poisoned L T) :
    t.Poisoned L T ⊆ s.Poisoned L T := by
  intro y hy
  by_cases hyx : y = x
  · subst hyx
    exact hx hy
  · exact (h.poisoned_iff hyx).1 hy

end OnlyAt

/-- the same blocks are missing, and nothing else got worse -/
theorem Gains.of_subset (hb : s.Bounded L T) (hmiss : t.Missing L = s.Missing L) (hstale : t.Stale ⊆ s.Stale)
    (hpoisoned : t.Poisoned L T ⊆ s.Poisoned L T)
    (hstart : ∀ x, t.state x = some .notStarted → s.state x = some .notStarted) : Gains L T K s t := by
  refine Or.inr ⟨?_, hmiss, hstart⟩
  have hp := Nat.mul_le_mul_left K (Set.ncard_le_ncard hpoisoned hb.poisoned)
  have hs := Set.ncard_le_ncard hstale hb.stale
  rw [work, work, hmiss]
  omega

/-! ## Choices and requests -/

/-- the same blocks of a piece are HAVE in both slots, so that the one is filled if the other is -/
theorem SlotFilled.of_have {sl' : Slot} (hf : SlotFilled L T x sl) (hdata : sl'.data = sl.data)
    (hhave : ∀ k : ℕ, sl'.blocks[k]? = some .haveBlock → sl.blocks[k]? = some .haveBlock) : SlotFilled L T x sl' := by
  intro i hi hk
  rw [hdata]
  exact hf i hi (hhave _ hk)

/-- a block that is not HAVE, of an open piece, is missing -/
theorem mem_missing_of_slot (hinv : s.Inv L) (hsl : s.slot x = some sl) {off : ℕ} (hoff : off < L.len x)
    (hnot : sl.blocks[off / L.blockLength]? ≠ some .haveBlock) : ⟨x, off / L.blockLength⟩ ∈ s.Missing L := by
  refine ⟨?_, ?_, L.div_lt_blocks hoff, ?_⟩
  · rcases hinv.state_of_slot hsl with h | h <;> simp [h]
  · rcases hinv.state_of_slot hsl with h | h <;> simp [h]
  · intro sl' hsl'
    rw [hsl, Option.some.injEq] at hsl'
    exact hsl' ▸ hnot

variable [DecidableEq ι] {sha1 : Bytes → Bytes}

theorem Choice.gains [DecidableEq π] (hinv : s.Inv L) (hb : s.Bounded L T) {full : Prop} {p : π} {S : Set ι} {r : Option ι}
    (hc : Choice L full p S s r t) : Gains L T K s t := by
  cases hc with
  | affinity x ha => exact .of_eq rfl rfl
  | bound x ha hx hS hstart => exact .of_eq rfl rfl
  | nothing ha hopen hstart => exact .of_eq rfl rfl
  | opened x data ha hx hS hfull hd =>
    have hpos := L.blocks_pos x
    have hno : s.slot x = none := by
      rw [← Option.not_isSome_iff_eq_none, (hinv.piece x).dom, hx]
      simp
    have hslot : (s.openPiece L p x data).slot x = some ⟨List.replicate (L.blocks x) .dontHave, data⟩ := by
      simp [openPiece]
    have hone : OnlyAt x s (s.openPiece L p x data) :=
      ⟨fun y hy => by simp [openPiece, hy], fun y hy => by simp [openPiece, hy]⟩
    -- a fresh slot has no block
    have hfresh : ∀ k : ℕ, (List.replicate (L.blocks x) BlockState.dontHave)[k]? ≠ some BlockState.haveBlock := by
      intro k hk
      rw [List.getElem?_replicate] at hk
      split_ifs at hk
      cases hk
    refine .of_subset hb (subset_antisymm (hone.missing_subset ?_) ?_) (hone.stale_subset_of ?_)
      (hone.poisoned_subset_of ?_) ?_
    · intro k hk
      exact ⟨by simp [hx], by simp [hx], hk.2.2.1, by simp [hno]⟩
    · rintro ⟨y, k⟩ hk
      by_cases hyx : y = x
      · subst hyx
        refine ⟨by simp [openPiece], by simp [openPiece], hk.2.2.1, ?_⟩
        intro sl hsl
        rw [hslot, Option.some.injEq] at hsl
        exact hsl ▸ hfresh k
      · exact (hone.missing_iff hyx).2 hk
    · intro hstale
      obtain ⟨-, sl, hsl, hnot⟩ := hstale
      rw [hslot, Option.some.injEq] at hsl
      subst hsl
      exact absurd (List.mem_replicate.2 ⟨by omega, rfl⟩) hnot
    · intro hpoisoned
      obtain ⟨sl, hsl, hbad⟩ := hpoisoned
      rw [hslot, Option.some.injEq] at hsl
      subst hsl
      exact absurd (fun i _ hi => absurd hi (hfresh _)) hbad
    · intro y hy
      by_cases hyx : y = x
      · exact hyx ▸ hx
      · rwa [hone.state y hyx] at hy
  | reopened x sl₀ ha hx hsl₀ hS hstart =>
    have hslot : (s.reopen p x sl₀).slot x = some { sl₀ with blocks := clearRequested sl₀.blocks } := by simp [reopen]
    have hone : OnlyAt x s (s.reopen p x sl₀) := ⟨fun y hy => by simp [reopen, hy], fun y hy => by simp [reopen, hy]⟩
    refine .of_subset hb (subset_antisymm (hone.missing_subset ?_) ?_) (hone.stale_subset_of ?_)
      (hone.poisoned_subset_of ?_) ?_
    · intro k hk
      refine ⟨by simp [hx], by simp [hx], hk.2.2.1, ?_⟩
      intro sl hsl hhave
      rw [hsl₀, Option.some.injEq] at hsl
      subst hsl
      refine hk.2.2.2 _ hslot ?_
      rw [getElem?_clearRequested, hhave]
      rfl
    · rintro ⟨y, k⟩ hk
      by_cases hyx : y = x
      · subst hyx
        refine ⟨by simp [reopen], by simp [reopen], hk.2.2.1, ?_⟩
        intro sl hsl hhave
        rw [hslot, Option.some.injEq] at hsl
        subst hsl
        exact hk.2.2.2 sl₀ hsl₀ (PieceManager.clearRequested_have hhave)
      · exact (hone.missing_iff hyx).2 hk
    · intro hstale
      obtain ⟨-, sl, hsl, hnot⟩ := hstale
      rw [hslot, Option.some.injEq] at hsl
      subst hsl
      exact absurd (clearRequested_missing ((hinv.piece x).missing sl₀ hsl₀)) hnot
    · intro hpoisoned
      obtain ⟨sl, hsl, hbad⟩ := hpoisoned
      rw [hslot, Option.some.injEq] at hsl
      subst hsl
      exact ⟨sl₀, hsl₀, fun hf => hbad (hf.of_have rfl fun k hk => PieceManager.clearRequested_have hk)⟩
    · intro y hy
      by_cases hyx : y = x
      · subst hyx
        simp [reopen] at hy
      · rwa [hone.state y hyx] at hy

theorem Gains.retrieve (hb : s.Bounded L T) (hx : s.state x = some .buffered) (hsl : s.slot x = some sl) :
    Gains L T K s (s.retrieve x sl) := by
  have hstate := retrieve_state s x sl
  have hslot : (s.retrieve x sl).slot x = some { sl with blocks := markRequested sl.blocks } := by simp [retrieve_slot]
  have hone : OnlyAt x s (s.retrieve x sl) := by
    refine ⟨fun y hy => ?_, fun y hy => by simp [retrieve_slot, hy]⟩
    rw [hstate]
    split_ifs <;> simp [hy]
  have hopen : (s.retrieve x sl).state x = some .buffered ∨ (s.retrieve x sl).state x = some .allRequested := by
    rw [hstate]
    split_ifs
    · exact Or.inl hx
    · exact Or.inr (Function.update_self ..)
  refine .of_subset hb (subset_antisymm (hone.missing_subset ?_) ?_) (hone.stale_subset_of ?_)
    (hone.poisoned_subset_of ?_) ?_
  · intro k hk
    refine ⟨by simp [hx], by simp [hx], hk.2.2.1, ?_⟩
    intro sl' hsl' hhave
    rw [hsl, Option.some.injEq] at hsl'
    subst hsl'
    refine hk.2.2.2 _ hslot ?_
    rw [getElem?_markRequested, if_neg, hhave]
    intro hfirst
    rw [(firstMissing_eq_some.1 hfirst).1] at hhave
    cases hhave
  · rintro ⟨y, k⟩ hk
    by_cases hyx : y = x
    · subst hyx
      refine ⟨by rcases hopen with h | h <;> simp [h], by rcases hopen with h | h <;> simp [h], hk.2.2.1, ?_⟩
      intro sl' hsl' hhave
      rw [hslot, Option.some.injEq] at hsl'
      subst hsl'
      exact hk.2.2.2 sl hsl (PieceManager.markRequested_have hhave)
    · exact (hone.missing_iff hyx).2 hk
  · -- without a missing block the piece is closed
    intro hstale
    obtain ⟨hbuf, sl', hsl', hnot⟩ := hstale
    rw [hslot, Option.some.injEq] at hsl'
    subst hsl'
    rw [hstate, if_neg hnot] at hbuf
    simp at hbuf
  · intro hpoisoned
    obtain ⟨sl', hsl', hbad⟩ := hpoisoned
    rw [hslot, Option.some.injEq] at hsl'
    subst hsl'
    exact ⟨sl, hsl, fun hf => hbad (hf.of_have rfl fun k hk => PieceManager.markRequested_have hk)⟩
  · intro y hy
    by_cases hyx : y = x
    · subst hyx
      rcases hopen with h | h <;> simp [h] at hy
    · rwa [hone.state y hyx] at hy

/-! ## Deliveries -/

/-- the block that arrives spoils nothing -/
def Right (L : Layout ι) (T : ι → Bytes) (x : ι) (sl : Slot) (off : ℕ) (src : Bytes) : Prop :=
  SlotFilled L T x sl → SlotFilled L T x ⟨sl.blocks.set (off / L.blockLength) .haveBlock, splice sl.data off src⟩

section Deliver

variable {off : ℕ} {src : Bytes} (hinv : s.Inv L) (hb : s.Bounded L T) (hsl : s.slot x = some sl)
  (hoff : off < L.len x) (hnot : sl.blocks[off / L.blockLength]? ≠ some .haveBlock)

theorem onlyAt_deliver : OnlyAt x s (s.deliver L sha1 x sl off src) := by
  rcases deliver_cases L sha1 s x sl off src with ⟨-, ⟨-, ht⟩ | ⟨-, ht⟩⟩ | ⟨-, ht⟩ <;> rw [ht] <;>
    exact ⟨fun y hy => by simp [close, hy], fun y hy => by simp [close, hy]⟩

include hinv hb hsl hoff hnot

/-- **A delivery**: a block is there, and its piece may be stale or poisoned; or the piece is thrown away. If the block
is right, the piece is poisoned only if it was, and thrown away only if it was poisoned. -/
theorem deliver_outcome (hlen : off + src.length ≤ L.len x) (hT : (T x).length = L.len x) (hsha : sha1 (T x) = L.hash x) :
    ((s.deliver L sha1 x sl off src).Missing L).ncard < (s.Missing L).ncard ∧
        (s.deliver L sha1 x sl off src).Stale ⊆ insert x s.Stale ∧
        (s.deliver L sha1 x sl off src).Poisoned L T ⊆ insert x (s.Poisoned L T) ∧
        (Right L T x sl off src → (s.deliver L sha1 x sl off src).Poisoned L T ⊆ s.Poisoned L T) ∨
      (s.deliver L sha1 x sl off src).Stale ⊆ s.Stale ∧
        (s.deliver L sha1 x sl off src).Poisoned L T ⊆ s.Poisoned L T ∧
        (Right L T x sl off src → x ∈ s.Poisoned L T ∧ x ∉ (s.deliver L sha1 x sl off src).Poisoned L T) := by
  have hone : OnlyAt x s (s.deliver L sha1 x sl off src) := onlyAt_deliver
  have hmem := mem_missing_of_slot hinv hsl hoff hnot
  have hfewer : (∀ k, ⟨x, k⟩ ∈ (s.deliver L sha1 x sl off src).Missing L →
      ⟨x, k⟩ ∈ s.Missing L ∧ k ≠ off / L.blockLength) →
      ((s.deliver L sha1 x sl off src).Missing L).ncard < (s.Missing L).ncard := by
    intro h
    refine Set.ncard_lt_ncard ((Set.ssubset_iff_of_subset (hone.missing_subset fun k hk => (h k hk).1)).2
      ⟨_, hmem, fun hk => (h _ hk).2 rfl⟩) hb.missing
  have hgone : (s.deliver L sha1 x sl off src).slot x = none →
      x ∉ (s.deliver L sha1 x sl off src).Stale ∧ x ∉ (s.deliver L sha1 x sl off src).Poisoned L T := by
    intro hnone
    constructor
    · intro h
      obtain ⟨-, sl', hsl', -⟩ := h
      rw [hnone] at hsl'
      cases hsl'
    · intro h
      obtain ⟨sl', hsl', -⟩ := h
      rw [hnone] at hsl'
      cases hsl'
  rcases deliver_cases L sha1 s x sl off src with ⟨hall, ⟨-, ht⟩ | ⟨hne, ht⟩⟩ | ⟨-, ht⟩
  · -- the piece is complete
    obtain ⟨hstale, hpoisoned⟩ := hgone (by simp [ht, close])
    have hsub := hone.poisoned_subset_of fun h => absurd h hpoisoned
    refine Or.inl ⟨hfewer fun k hk => absurd (by simp [ht, close]) hk.2.1,
      (hone.stale_subset_of hstale).trans (Set.subset_insert _ _), hsub.trans (Set.subset_insert _ _), fun _ => hsub⟩
  · -- the piece is wrong
    obtain ⟨hstale, hpoisoned⟩ := hgone (by simp [ht, close])
    refine Or.inr ⟨hone.stale_subset_of hstale, hone.poisoned_subset_of fun h => absurd h hpoisoned, ?_⟩
    intro hright
    refine ⟨⟨sl, hsl, fun hf => hne ?_⟩, hpoisoned⟩
    have hd := (hinv.piece x).data sl hsl
    have hdata : splice sl.data off src = T x := (hright hf).complete hall
      (by simpa using (hinv.piece x).blocks sl hsl) (by rw [length_splice (by omega), hd]) hT
    rw [hdata, hsha]
  · have hslot : (s.deliver L sha1 x sl off src).slot x =
        some ⟨sl.blocks.set (off / L.blockLength) .haveBlock, splice sl.data off src⟩ := by simp [ht]
    refine Or.inl ⟨hfewer ?_, hone.stale_subset, hone.poisoned_subset, ?_⟩
    · intro k hk
      obtain ⟨-, -, hklt, hknot⟩ := hk
      have hlt : k < sl.blocks.length := (hinv.piece x).blocks sl hsl ▸ hklt
      have hkne : k ≠ off / L.blockLength := by
        rintro rfl
        exact hknot _ hslot (by simp [hlt])
      refine ⟨⟨hmem.1, hmem.2.1, hklt, ?_⟩, hkne⟩
      intro sl' hsl' hhave
      rw [hsl, Option.some.injEq] at hsl'
      subst hsl'
      refine hknot _ hslot ?_
      rw [List.getElem?_set_ne hkne.symm]
      exact hhave
    · intro hright
      refine hone.poisoned_subset_of fun h => ?_
      obtain ⟨sl', hsl', hbad⟩ := h
      rw [hslot, Option.some.injEq] at hsl'
      subst hsl'
      exact ⟨sl, hsl, fun hf => hbad (hright hf)⟩

/-- whatever arrives, there is only so much more to do -/
theorem deliver_work_le (hlen : off + src.length ≤ L.len x) (hT : (T x).length = L.len x)
    (hsha : sha1 (T x) = L.hash x) (hK : 2 * ((s.deliver L sha1 x sl off src).Missing L).ncard ≤ K) :
    (s.deliver L sha1 x sl off src).work L T K ≤ s.work L T K + K := by
  rcases deliver_outcome hinv hb hsl hoff hnot hlen hT hsha with ⟨hmiss, hstale, hpoisoned, -⟩ | ⟨hstale, hpoisoned, -⟩
  · have hs := (Set.ncard_le_ncard hstale (hb.stale.insert x)).trans (Set.ncard_insert_le x _)
    have hp := (Set.ncard_le_ncard hpoisoned (hb.poisoned.insert x)).trans (Set.ncard_insert_le x _)
    have hp' := Nat.mul_le_mul_left K hp
    rw [Nat.mul_add, Nat.mul_one] at hp'
    rw [work, work]
    omega
  · have hs := Set.ncard_le_ncard hstale hb.stale
    have hp := Nat.mul_le_mul_left K (Set.ncard_le_ncard hpoisoned hb.poisoned)
    rw [work, work]
    omega

omit hoff hnot in
/-- a right block leaves less to do -/
theorem deliver_work_lt {k : ℕ} (hk : k * L.blockLength < L.len x) (hnot : sl.blocks[k]? ≠ some .haveBlock)
    (hT : (T x).length = L.len x) (hsha : sha1 (T x) = L.hash x)
    (hK : 2 * ((s.deliver L sha1 x sl (k * L.blockLength) (blockOf L (T x) k)).Missing L).ncard < K) :
    (s.deliver L sha1 x sl (k * L.blockLength) (blockOf L (T x) k)).work L T K < s.work L T K := by
  have hdiv : k * L.blockLength / L.blockLength = k := Nat.mul_div_cancel k L.blockLength_pos
  have hlen := length_blockOf L (k := k) hT
  have hfit : k * L.blockLength + (blockOf L (T x) k).length ≤ L.len x := by omega
  have hright : Right L T x sl (k * L.blockLength) (blockOf L (T x) k) := by
    rw [Right, hdiv]
    exact fun hf => hf.set ((hinv.piece x).data sl hsl) hT hk
  rcases deliver_outcome hinv hb hsl hk (by rwa [hdiv]) hfit hT hsha with
    ⟨hmiss, hstale, -, hpoisoned⟩ | ⟨hstale, hpoisoned, hthrown⟩
  · have hs := (Set.ncard_le_ncard hstale (hb.stale.insert x)).trans (Set.ncard_insert_le x _)
    have hp := Nat.mul_le_mul_left K (Set.ncard_le_ncard (hpoisoned hright) hb.poisoned)
    rw [work, work]
    omega
  · obtain ⟨hx, hx'⟩ := hthrown hright
    have hs := Set.ncard_le_ncard hstale hb.stale
    have hlt := Set.ncard_lt_ncard ((Set.ssubset_iff_of_subset hpoisoned).2 ⟨x, hx, hx'⟩) hb.poisoned
    have hp := Nat.mul_le_mul_left K (Nat.succ_le_of_lt hlt)
    rw [Nat.mul_succ] at hp
    rw [work, work]
    omega

end Deliver

end Store

end SimpleTorrent
