/-
`Buffer` (`Buffer.h`, `buffer.cpp`): the bounded array of pieces being downloaded, and the hash map from piece index to
array slot.

The first part is the class as the code has it, every access through `Checked`. The order in which the hash map lists
its keys is unspecified, so `getPiecesInBuffer` takes it as an argument: any permutation of the keys can be asked for.

The second part is the representation invariant `WF` and what the buffer stands for, a finite map from piece index to
slot contents (`slotOf`). Each operation has one theorem here that says when it succeeds and how it changes `slotOf`;
nothing later looks at slot numbers.
- `WF.size_le`, `WF.exists_free`: the map is never larger than the array, and a buffer that is not full has a free slot.
- `addPieceToBuffer_spec`: the only operation with a failure that `WF` does not exclude. Slot numbers pass through an
  `int`, so a first free slot at 2^31 or beyond turns into a negative index.
-/
import SimpleTorrent.Model.Types
import SimpleTorrent.Core.Splice

namespace SimpleTorrent

open Checked Splice

structure BufferPiece where
  pieceIndex : ℕ
  data : Bytes
  blocksState : List BlockState
  empty : Bool
deriving DecidableEq, Repr

def BufferPiece.new (numBlocks pieceLength : ℕ) : BufferPiece :=
  ⟨0, List.replicate pieceLength 0, List.replicate numBlocks .dontHave, true⟩

structure Buffer where
  buffer : List BufferPiece
  /-- maps piece index to buffer index -/
  pieceBufferMap : AList fun _ : ℕ => ℕ
  blockLength : ℕ
  normalPieceLength : ℕ

namespace Buffer

/-! ## The class -/

def new (blockLength pieceLength bufferSize : ℕ) : Buffer :=
  ⟨List.replicate bufferSize (BufferPiece.new (pieceLength / blockLength) pieceLength), ∅, blockLength, pieceLength⟩

def getPiecesInBuffer (b : Buffer) (order : List ℕ) : List ℕ :=
  if order.isPerm b.pieceBufferMap.keys then order else b.pieceBufferMap.keys

def isFull (b : Buffer) : Bool := b.pieceBufferMap.keys.length == b.buffer.length

/-- the first empty slot as an `int`, -1 when there is none -/
def emptyIdx (b : Buffer) : ℤ :=
  match b.buffer.findIdx? (·.empty) with
  | some i => toInt i
  | none => -1

def addPieceToBuffer (b : Buffer) (pieceIndex numBlocks pieceLength : ℕ) : Except Fault (Bool × Buffer) :=
  if b.pieceBufferMap.keys.length = b.buffer.length then .ok (false, b)
  else do
    let slot ← vecIdxInt b.buffer b.emptyIdx
    let slot' : BufferPiece :=
      { pieceIndex := pieceIndex
        data := resize slot.data pieceLength 0
        blocksState := (resize slot.blocksState numBlocks .haveBlock).map fun _ => .dontHave
        empty := false }
    return (true, { b with
      buffer := b.buffer.set b.emptyIdx.toNat slot'
      pieceBufferMap := b.pieceBufferMap.insert pieceIndex b.emptyIdx.toNat })

/-- the first block in state DONT_HAVE -/
def firstMissing (blocks : List BlockState) : Option ℕ := blocks.findIdx? (· == .dontHave)

def allRequestedOrCompleted (blocks : List BlockState) : Bool := blocks.all fun s => s == .requested || s == .haveBlock

/-- the block states after the request of the first missing block -/
def markRequested (blocks : List BlockState) : List BlockState :=
  match firstMissing blocks with
  | some i => blocks.set i .requested
  | none => blocks

/-- (all requested or completed, chosen block), and the buffer afterwards -/
def getBlockIndexToRetrieve (b : Buffer) (pieceIndex : ℕ) : Except Fault ((Bool × Option ℕ) × Buffer) := do
  assert (b.pieceBufferMap.lookup pieceIndex).isSome
  let bufferIndex ← mapAt b.pieceBufferMap pieceIndex
  let slot ← vecAt b.buffer bufferIndex
  let blocks := markRequested slot.blocksState
  return ((allRequestedOrCompleted blocks, firstMissing slot.blocksState),
    { b with buffer := b.buffer.set bufferIndex { slot with blocksState := blocks } })

/-- `std::copy` into the middle of a string: undefined past its end -/
def copyInto (data : Bytes) (off : ℕ) (src : Bytes) : Except Fault Bytes :=
  if off + src.length ≤ data.length then .ok (splice data off src) else .error .badCopy

/-- (completed, the piece's data), and the buffer afterwards -/
def writeBlockToBuffer (b : Buffer) (block : Block) : Except Fault ((Bool × Bytes) × Buffer) := do
  let blockIndex := block.blockOffset / b.blockLength
  let bufferIndex ← mapAt b.pieceBufferMap block.pieceIndex
  let piece ← vecIdx b.buffer bufferIndex
  let data ← copyInto piece.data block.blockOffset block.data
  let _ ← vecIdx piece.blocksState blockIndex
  let blocks := piece.blocksState.set blockIndex .haveBlock
  return ((blocks.all (· == .haveBlock), data),
    { b with buffer := b.buffer.set bufferIndex { piece with data := data, blocksState := blocks } })

def shouldWriteBlock (b : Buffer) (blockOffset pieceIndex : ℕ) : Except Fault Bool :=
  let blockIndex := blockOffset / b.blockLength
  if (b.pieceBufferMap.lookup pieceIndex).isSome then do
    let bufferIndex ← mapAt b.pieceBufferMap pieceIndex
    let piece ← vecAt b.buffer bufferIndex
    let blockState ← vecAt piece.blocksState blockIndex
    return blockState == .requested || blockState == .dontHave
  else .ok false

def removePieceFromBuffer (b : Buffer) (pieceIndex : ℕ) : Except Fault Buffer := do
  assert (b.pieceBufferMap.lookup pieceIndex).isSome
  let bufferIndex ← mapAt b.pieceBufferMap pieceIndex
  let slot ← vecIdxInt b.buffer (toInt bufferIndex)
  return { b with
    buffer := b.buffer.set (toInt bufferIndex).toNat { slot with empty := true }
    pieceBufferMap := b.pieceBufferMap.erase pieceIndex }

/-- every REQUESTED block back to DONT_HAVE -/
def clearRequested (blocks : List BlockState) : List BlockState :=
  blocks.map fun s => if s = .requested then .dontHave else s

def clearAllRequested (b : Buffer) (pieceIndex : ℕ) : Except Fault Buffer := do
  assert (b.pieceBufferMap.lookup pieceIndex).isSome
  let bufferIndex ← mapAt b.pieceBufferMap pieceIndex
  let slot ← vecIdxInt b.buffer (toInt bufferIndex)
  return { b with
    buffer := b.buffer.set (toInt bufferIndex).toNat { slot with blocksState := clearRequested slot.blocksState } }

/-! ## Block marks -/

section Marks

variable {blocks : List BlockState} {k : ℕ}

theorem firstMissing_eq_none : firstMissing blocks = none ↔ .dontHave ∉ blocks := by
  simp only [firstMissing, List.findIdx?_eq_none_iff, beq_eq_false_iff_ne]
  exact ⟨fun h hm => h _ hm rfl, fun h s hs e => h (e ▸ hs)⟩

/-- the chosen block is missing and every earlier one is not -/
theorem firstMissing_eq_some : firstMissing blocks = some k ↔
    blocks[k]? = some .dontHave ∧ ∀ j < k, blocks[j]? ≠ some .dontHave := by
  simp only [firstMissing, List.findIdx?_eq_some_iff_getElem, beq_iff_eq, ne_eq, List.getElem?_eq_some_iff]
  constructor
  · rintro ⟨hk, he, hlt⟩
    exact ⟨⟨hk, he⟩, fun j hj ⟨_, hje⟩ => hlt j hj hje⟩
  · rintro ⟨⟨hk, he⟩, hlt⟩
    exact ⟨hk, he, fun j hj hje => hlt j hj ⟨by omega, hje⟩⟩

theorem firstMissing_lt (h : firstMissing blocks = some k) : k < blocks.length :=
  (List.getElem?_eq_some_iff.1 (firstMissing_eq_some.1 h).1).1

theorem allRequestedOrCompleted_iff : allRequestedOrCompleted blocks = true ↔ .dontHave ∉ blocks := by
  simp only [allRequestedOrCompleted, List.all_eq_true, Bool.or_eq_true, beq_iff_eq]
  constructor
  · intro h hm
    rcases h _ hm with h | h <;> cases h
  · intro h s hs
    cases s with
    | haveBlock => exact Or.inr rfl
    | dontHave => exact absurd hs h
    | requested => exact Or.inl rfl

theorem getElem?_markRequested (j : ℕ) :
    (markRequested blocks)[j]? = if firstMissing blocks = some j then some .requested else blocks[j]? := by
  unfold markRequested
  cases hm : firstMissing blocks with
  | none => simp
  | some i =>
    by_cases hij : i = j
    · subst hij; simp [firstMissing_lt hm]
    · simp [hij]

@[simp] theorem length_markRequested : (markRequested blocks).length = blocks.length := by
  unfold markRequested; split <;> simp

@[simp] theorem length_clearRequested : (clearRequested blocks).length = blocks.length := by simp [clearRequested]

theorem getElem?_clearRequested (j : ℕ) :
    (clearRequested blocks)[j]? = blocks[j]?.map fun s => if s = .requested then .dontHave else s := by
  simp [clearRequested]

/-- a request leaves a block that is not HAVE -/
theorem markRequested_missing (h : ∃ s ∈ blocks, s ≠ .haveBlock) : ∃ s ∈ markRequested blocks, s ≠ .haveBlock := by
  obtain ⟨s, hs, hne⟩ := h
  obtain ⟨j, hj, rfl⟩ := List.getElem_of_mem hs
  by_cases hm : firstMissing blocks = some j
  · exact ⟨.requested, List.mem_of_getElem? (i := j) (by rw [getElem?_markRequested, if_pos hm]), by decide⟩
  · refine ⟨blocks[j], List.mem_of_getElem? (i := j) ?_, hne⟩
    rw [getElem?_markRequested, if_neg hm, List.getElem?_eq_getElem hj]

/-- reopening leaves no REQUESTED block, and a block that is not HAVE becomes DONT_HAVE -/
theorem clearRequested_missing (h : ∃ s ∈ blocks, s ≠ .haveBlock) : .dontHave ∈ clearRequested blocks := by
  obtain ⟨s, hs, hne⟩ := h
  refine List.mem_map.2 ⟨s, hs, ?_⟩
  cases s with
  | haveBlock => exact absurd rfl hne
  | dontHave => rfl
  | requested => rfl

end Marks

/-! ## Representation invariant -/

/-- the slot that holds piece `x` -/
def slotOf (b : Buffer) (x : ℕ) : Option BufferPiece := (b.pieceBufferMap.lookup x).bind fun j => b.buffer[j]?

structure WF (b : Buffer) : Prop where
  slot : ∀ x j, b.pieceBufferMap.lookup x = some j → ∃ p, b.buffer[j]? = some p ∧ p.empty = false ∧ p.pieceIndex = x
  used : ∀ j p, b.buffer[j]? = some p → p.empty = false → b.pieceBufferMap.lookup p.pieceIndex = some j
  small : ∀ x j, b.pieceBufferMap.lookup x = some j → j < 2 ^ 31
  /-- the array size came in as a `uint32_t` -/
  width : b.buffer.length < 2 ^ 32

variable {b : Buffer}

theorem wf_new (blockLength pieceLength : ℕ) {bufferSize : ℕ} (hs : bufferSize < 2 ^ 32) :
    (new blockLength pieceLength bufferSize).WF := by
  refine ⟨?_, ?_, ?_, by simpa [new] using hs⟩
  · simp [new]
  · intro j p hp he
    simp only [new, List.getElem?_replicate] at hp
    split_ifs at hp
    cases hp
    simp [BufferPiece.new] at he
  · simp [new]

theorem WF.inj (h : b.WF) {x y j : ℕ} (hx : b.pieceBufferMap.lookup x = some j)
    (hy : b.pieceBufferMap.lookup y = some j) : x = y := by
  obtain ⟨p, hp, -, rfl⟩ := h.slot x j hx
  obtain ⟨q, hq, -, rfl⟩ := h.slot y j hy
  rw [hp] at hq
  cases hq
  rfl

theorem WF.slotOf_eq_some (h : b.WF) {x : ℕ} {p : BufferPiece} (hp : b.slotOf x = some p) :
    ∃ j, b.pieceBufferMap.lookup x = some j ∧ b.buffer[j]? = some p ∧ j < 2 ^ 31 ∧ j < b.buffer.length ∧
      p.empty = false ∧ p.pieceIndex = x := by
  unfold slotOf at hp
  cases hj : b.pieceBufferMap.lookup x with
  | none => simp [hj] at hp
  | some j =>
    have hp' : b.buffer[j]? = some p := by simpa [hj] using hp
    obtain ⟨q, hq, he, hi⟩ := h.slot x j hj
    rw [hp'] at hq
    cases hq
    exact ⟨j, rfl, hp', h.small x j hj, (List.getElem?_eq_some_iff.1 hp').1, he, hi⟩

theorem WF.slotOf_isSome (h : b.WF) {x : ℕ} : (b.slotOf x).isSome ↔ x ∈ b.pieceBufferMap := by
  rw [← AList.lookup_isSome]
  constructor
  · intro hs
    obtain ⟨p, hp⟩ := Option.isSome_iff_exists.1 hs
    obtain ⟨j, hj, -⟩ := h.slotOf_eq_some hp
    simp [hj]
  · intro hs
    obtain ⟨j, hj⟩ := Option.isSome_iff_exists.1 hs
    obtain ⟨p, hp, -⟩ := h.slot x j hj
    simp [slotOf, hj, hp]

theorem WF.slotOf_eq_none (h : b.WF) {x : ℕ} : b.slotOf x = none ↔ b.pieceBufferMap.lookup x = none := by
  rw [← Option.not_isSome_iff_eq_none, h.slotOf_isSome, AList.lookup_eq_none]

theorem mem_keys_iff (h : b.WF) {x : ℕ} : x ∈ b.pieceBufferMap.keys ↔ (b.slotOf x).isSome := by
  rw [h.slotOf_isSome, AList.mem_keys]

/-! ## Counting slots -/

/-- keys are at most as many as the slot numbers they can take -/
theorem WF.keys_length_le (h : b.WF) {N : ℕ} (hN : ∀ x j, b.pieceBufferMap.lookup x = some j → j < N) :
    b.pieceBufferMap.keys.length ≤ N := by
  have hlook : ∀ x ∈ b.pieceBufferMap.keys, ∃ j, b.pieceBufferMap.lookup x = some j := fun x hx =>
    Option.isSome_iff_exists.1 (AList.lookup_isSome.2 hx)
  have hnd : (b.pieceBufferMap.keys.map fun x => (b.pieceBufferMap.lookup x).getD 0).Nodup := by
    refine List.Nodup.map_on ?_ b.pieceBufferMap.keys_nodup
    intro x hx y hy hxy
    obtain ⟨i, hi⟩ := hlook x hx
    obtain ⟨j, hj⟩ := hlook y hy
    simp only [hi, hj, Option.getD_some] at hxy
    exact h.inj hi (hxy ▸ hj)
  have hsub : (b.pieceBufferMap.keys.map fun x => (b.pieceBufferMap.lookup x).getD 0) ⊆ List.range N := by
    intro j hj
    obtain ⟨x, hx, rfl⟩ := List.mem_map.1 hj
    obtain ⟨i, hi⟩ := hlook x hx
    simpa [hi] using hN x i hi
  simpa using hnd.length_le_of_subset hsub

theorem WF.size_le (h : b.WF) : b.pieceBufferMap.keys.length ≤ b.buffer.length :=
  h.keys_length_le fun x j hj => by
    obtain ⟨p, hp, -⟩ := h.slot x j hj
    exact (List.getElem?_eq_some_iff.1 hp).1

/-- slots that are all in use are at most as many as the keys -/
theorem WF.le_size (h : b.WF) {i : ℕ} (hi : ∀ j < i, ∃ p, b.buffer[j]? = some p ∧ p.empty = false) :
    i ≤ b.pieceBufferMap.keys.length := by
  have hnd : ((List.range i).map fun j => (b.buffer[j]?.map BufferPiece.pieceIndex).getD 0).Nodup := by
    refine List.Nodup.map_on ?_ List.nodup_range
    intro j hj k hk hjk
    obtain ⟨p, hp, hpe⟩ := hi j (List.mem_range.1 hj)
    obtain ⟨q, hq, hqe⟩ := hi k (List.mem_range.1 hk)
    simp only [hp, hq, Option.map_some, Option.getD_some] at hjk
    have hpj := h.used j p hp hpe
    rw [hjk, h.used k q hq hqe] at hpj
    exact (Option.some.inj hpj).symm
  have hsub : ((List.range i).map fun j => (b.buffer[j]?.map BufferPiece.pieceIndex).getD 0) ⊆
      b.pieceBufferMap.keys := by
    intro x hx
    obtain ⟨j, hj, rfl⟩ := List.mem_map.1 hx
    obtain ⟨p, hp, hpe⟩ := hi j (List.mem_range.1 hj)
    have hpi : (b.buffer[j]?.map BufferPiece.pieceIndex).getD 0 = p.pieceIndex := by simp [hp]
    have hmem : p.pieceIndex ∈ b.pieceBufferMap := AList.lookup_isSome.1 (by rw [h.used j p hp hpe]; rfl)
    exact hpi ▸ AList.mem_keys.1 hmem
  simpa using hnd.length_le_of_subset hsub

/-- **A buffer that is not full has a free slot**, and no later than at the number of pieces it holds. -/
theorem WF.exists_free (h : b.WF) (hf : b.pieceBufferMap.keys.length ≠ b.buffer.length) :
    ∃ i p, b.buffer.findIdx? (·.empty) = some i ∧ b.buffer[i]? = some p ∧ p.empty = true ∧
      i ≤ b.pieceBufferMap.keys.length := by
  cases hfi : b.buffer.findIdx? (·.empty) with
  | none =>
    rw [List.findIdx?_eq_none_iff] at hfi
    refine absurd (le_antisymm h.size_le (h.le_size ?_)) hf
    intro j hj
    exact ⟨b.buffer[j], List.getElem?_eq_getElem hj, by simpa using hfi _ (List.getElem_mem hj)⟩
  | some i =>
    obtain ⟨hi, he, hlt⟩ := List.findIdx?_eq_some_iff_getElem.1 hfi
    refine ⟨i, b.buffer[i], rfl, List.getElem?_eq_getElem hi, he, h.le_size fun j hj => ?_⟩
    exact ⟨b.buffer[j], List.getElem?_eq_getElem (by omega), by simpa using hlt j hj⟩

/-! ## What each operation does to the map of slots -/

/-- the buffer with the slot of piece `x` replaced -/
def putSlot (b : Buffer) (x : ℕ) (p : BufferPiece) : Buffer :=
  match b.pieceBufferMap.lookup x with
  | some j => { b with buffer := b.buffer.set j p }
  | none => b

/-- the buffer with the slot of piece `x` released -/
def dropSlot (b : Buffer) (x : ℕ) : Buffer :=
  match b.pieceBufferMap.lookup x with
  | some j => { b with
      buffer := b.buffer.modify j fun p => { p with empty := true }
      pieceBufferMap := b.pieceBufferMap.erase x }
  | none => b

/-- the buffer with a new piece in slot `i` -/
def takeSlot (b : Buffer) (i : ℕ) (q : BufferPiece) : Buffer :=
  { b with
    buffer := b.buffer.set i q
    pieceBufferMap := b.pieceBufferMap.insert q.pieceIndex i }

section Put

variable {x : ℕ} {p q : BufferPiece}

@[simp] theorem putSlot_map : (b.putSlot x q).pieceBufferMap = b.pieceBufferMap := by unfold putSlot; split <;> rfl

@[simp] theorem putSlot_blockLength : (b.putSlot x q).blockLength = b.blockLength := by
  unfold putSlot; split <;> rfl

@[simp] theorem putSlot_length : (b.putSlot x q).buffer.length = b.buffer.length := by
  unfold putSlot; split <;> simp

theorem WF.putSlot (h : b.WF) (hp : b.slotOf x = some p) (hx : q.pieceIndex = x) (he : q.empty = false) :
    (b.putSlot x q).WF := by
  obtain ⟨j, hj, hbj, -, hlt, -, hpx⟩ := h.slotOf_eq_some hp
  refine ⟨?_, ?_, by simpa using h.small, by simpa using h.width⟩
  · intro y i hy
    rw [putSlot_map] at hy
    simp only [Buffer.putSlot, hj]
    by_cases hij : j = i
    · subst hij
      exact ⟨q, by simp [hlt], he, hx.trans (h.inj hj hy)⟩
    · rw [List.getElem?_set_ne hij]
      exact h.slot y i hy
  · intro i r hr hre
    rw [putSlot_map]
    simp only [Buffer.putSlot, hj] at hr
    rcases getElem?_set_eq_some hr with ⟨rfl, rfl⟩ | ⟨-, hr⟩
    · rw [hx]; exact hj
    · exact h.used i r hr hre

theorem WF.slotOf_putSlot (h : b.WF) (hp : b.slotOf x = some p) :
    (b.putSlot x q).slotOf = Function.update b.slotOf x (some q) := by
  obtain ⟨j, hj, -, -, hlt, -, -⟩ := h.slotOf_eq_some hp
  funext y
  by_cases hyx : y = x
  · subst hyx
    simp [slotOf, Buffer.putSlot, hj, hlt]
  · rw [Function.update_of_ne hyx]
    simp only [slotOf, putSlot_map]
    cases hy : b.pieceBufferMap.lookup y with
    | none => rfl
    | some i =>
      have hij : j ≠ i := fun e => hyx (h.inj hy (e ▸ hj))
      simp [Buffer.putSlot, hj, List.getElem?_set_ne hij]

end Put

section Drop

variable {x : ℕ} {p : BufferPiece}

@[simp] theorem dropSlot_blockLength : (b.dropSlot x).blockLength = b.blockLength := by
  unfold dropSlot; split <;> rfl

@[simp] theorem dropSlot_length : (b.dropSlot x).buffer.length = b.buffer.length := by
  unfold dropSlot; split <;> simp

theorem dropSlot_map (hp : b.slotOf x = some p) : (b.dropSlot x).pieceBufferMap = b.pieceBufferMap.erase x := by
  unfold dropSlot slotOf at *
  split
  · rfl
  · rename_i hn; simp [hn] at hp

theorem WF.dropSlot (h : b.WF) (hp : b.slotOf x = some p) : (b.dropSlot x).WF := by
  obtain ⟨j, hj, hbj, -, hlt, -, hpx⟩ := h.slotOf_eq_some hp
  refine ⟨?_, ?_, ?_, by simpa using h.width⟩
  · intro y i hy
    rw [dropSlot_map hp] at hy
    obtain ⟨hyx, hy'⟩ := lookup_erase_eq_some.1 hy
    have hij : j ≠ i := fun e => hyx (h.inj hy' (e ▸ hj))
    simpa [Buffer.dropSlot, hj, List.getElem?_modify, hij] using h.slot y i hy'
  · intro i r hr hre
    rw [dropSlot_map hp]
    simp only [Buffer.dropSlot, hj, List.getElem?_modify] at hr
    by_cases hij : j = i
    · subst hij
      simp only [hbj, if_true, Option.map_eq_map, Option.map_some, Option.some.injEq] at hr
      subst hr
      simp at hre
    · simp only [hij, if_false, Option.map_eq_map, Option.map_id'] at hr
      have hri := h.used i r hr hre
      have hrx : r.pieceIndex ≠ x := fun e => hij (by rw [e, hj] at hri; exact Option.some.inj hri)
      rwa [AList.lookup_erase_ne hrx]
  · intro y i hy
    rw [dropSlot_map hp] at hy
    exact h.small y i (lookup_erase_eq_some.1 hy).2

theorem WF.slotOf_dropSlot (h : b.WF) (hp : b.slotOf x = some p) :
    (b.dropSlot x).slotOf = Function.update b.slotOf x none := by
  obtain ⟨j, hj, -⟩ := h.slotOf_eq_some hp
  funext y
  by_cases hyx : y = x
  · subst hyx
    simp [slotOf, dropSlot_map hp, AList.lookup_erase]
  · rw [Function.update_of_ne hyx]
    simp only [slotOf, dropSlot_map hp, AList.lookup_erase_ne hyx]
    cases hy : b.pieceBufferMap.lookup y with
    | none => rfl
    | some i =>
      have hij : j ≠ i := fun e => hyx (h.inj hy (e ▸ hj))
      simp [Buffer.dropSlot, hj, List.getElem?_modify, hij]

end Drop

section Take

variable {i : ℕ} {p q : BufferPiece}

theorem length_keys_takeSlot (hnew : q.pieceIndex ∉ b.pieceBufferMap) :
    (b.takeSlot i q).pieceBufferMap.keys.length = b.pieceBufferMap.keys.length + 1 := by
  simp [takeSlot, AList.keys_insert, List.erase_of_not_mem (fun hm => hnew (AList.mem_keys.2 hm))]

/-- no piece has a free slot -/
theorem WF.ne_of_free (h : b.WF) (hbi : b.buffer[i]? = some p) (hpe : p.empty = true) {y j : ℕ}
    (hy : b.pieceBufferMap.lookup y = some j) : i ≠ j := by
  intro hij
  obtain ⟨r, hr, hre, -⟩ := h.slot y j hy
  rw [← hij, hbi, Option.some.injEq] at hr
  rw [← hr, hpe] at hre
  cases hre

theorem WF.takeSlot (h : b.WF) (hbi : b.buffer[i]? = some p) (hpe : p.empty = true)
    (hnew : q.pieceIndex ∉ b.pieceBufferMap) (hqe : q.empty = false) (hi : i < 2 ^ 31) : (b.takeSlot i q).WF := by
  have hilt : i < b.buffer.length := (List.getElem?_eq_some_iff.1 hbi).1
  refine ⟨?_, ?_, ?_, by simpa [Buffer.takeSlot] using h.width⟩
  · intro y j hy
    by_cases hyx : y = q.pieceIndex
    · rw [hyx, Buffer.takeSlot, AList.lookup_insert, Option.some.injEq] at hy
      subst hy
      exact ⟨q, List.getElem?_set_self hilt, hqe, hyx.symm⟩
    · rw [Buffer.takeSlot, AList.lookup_insert_ne hyx] at hy
      rw [Buffer.takeSlot, List.getElem?_set_ne (h.ne_of_free hbi hpe hy)]
      exact h.slot y j hy
  · intro j r hr hre
    rcases getElem?_set_eq_some hr with ⟨rfl, rfl⟩ | ⟨-, hr⟩
    · exact AList.lookup_insert _
    · have hrj := h.used j r hr hre
      have hrx : r.pieceIndex ≠ q.pieceIndex := fun e => hnew (AList.lookup_isSome.1 (by rw [← e, hrj]; rfl))
      rw [Buffer.takeSlot, AList.lookup_insert_ne hrx]
      exact hrj
  · intro y j hy
    by_cases hyx : y = q.pieceIndex
    · rw [hyx, Buffer.takeSlot, AList.lookup_insert, Option.some.injEq] at hy
      exact hy ▸ hi
    · rw [Buffer.takeSlot, AList.lookup_insert_ne hyx] at hy
      exact h.small y j hy

theorem WF.slotOf_takeSlot (h : b.WF) (hbi : b.buffer[i]? = some p) (hpe : p.empty = true) :
    (b.takeSlot i q).slotOf = Function.update b.slotOf q.pieceIndex (some q) := by
  have hilt : i < b.buffer.length := (List.getElem?_eq_some_iff.1 hbi).1
  funext y
  by_cases hyx : y = q.pieceIndex
  · subst hyx
    simp [slotOf, Buffer.takeSlot, AList.lookup_insert, hilt]
  · rw [Function.update_of_ne hyx]
    simp only [slotOf, Buffer.takeSlot, AList.lookup_insert_ne hyx]
    cases hy : b.pieceBufferMap.lookup y with
    | none => rfl
    | some j => simp [List.getElem?_set_ne (h.ne_of_free hbi hpe hy)]

end Take

/-! ## Specification of the operations -/

section Spec

variable {x : ℕ} {p : BufferPiece}

theorem isFull_iff : b.isFull = true ↔ b.pieceBufferMap.keys.length = b.buffer.length := by simp [isFull]

theorem mem_getPiecesInBuffer {order : List ℕ} (h : b.WF) :
    x ∈ b.getPiecesInBuffer order ↔ (b.slotOf x).isSome := by
  rw [← mem_keys_iff h]
  unfold getPiecesInBuffer
  split_ifs with hp
  · exact (List.isPerm_iff.1 hp).mem_iff
  · rfl

theorem length_getPiecesInBuffer (order : List ℕ) :
    (b.getPiecesInBuffer order).length = b.pieceBufferMap.keys.length := by
  unfold getPiecesInBuffer
  split_ifs with hp
  · exact (List.isPerm_iff.1 hp).length_eq
  · rfl

theorem getBlockIndexToRetrieve_spec (h : b.WF) (hp : b.slotOf x = some p) :
    b.getBlockIndexToRetrieve x =
      .ok ((allRequestedOrCompleted (markRequested p.blocksState), firstMissing p.blocksState),
        b.putSlot x { p with blocksState := markRequested p.blocksState }) := by
  obtain ⟨j, hj, hbj, -⟩ := h.slotOf_eq_some hp
  have h1 : mapAt b.pieceBufferMap x = .ok j := mapAt_eq_ok.2 hj
  have h2 : vecAt b.buffer j = .ok p := vecAt_eq_ok.2 hbj
  simp [getBlockIndexToRetrieve, assert, hj, h1, h2, putSlot]

theorem writeBlockToBuffer_spec (h : b.WF) {block : Block} (hp : b.slotOf block.pieceIndex = some p)
    (hlen : block.blockOffset + block.data.length ≤ p.data.length)
    (hidx : block.blockOffset / b.blockLength < p.blocksState.length) :
    b.writeBlockToBuffer block =
      .ok (((p.blocksState.set (block.blockOffset / b.blockLength) .haveBlock).all (· == .haveBlock),
          splice p.data block.blockOffset block.data),
        b.putSlot block.pieceIndex { p with
          data := splice p.data block.blockOffset block.data
          blocksState := p.blocksState.set (block.blockOffset / b.blockLength) .haveBlock }) := by
  obtain ⟨j, hj, hbj, -⟩ := h.slotOf_eq_some hp
  have h1 : mapAt b.pieceBufferMap block.pieceIndex = .ok j := mapAt_eq_ok.2 hj
  have h2 : vecIdx b.buffer j = .ok p := vecIdx_eq_ok.2 hbj
  have h3 : vecIdx p.blocksState (block.blockOffset / b.blockLength) = .ok _ :=
    vecIdx_eq_ok.2 (List.getElem?_eq_getElem hidx)
  simp [writeBlockToBuffer, copyInto, hlen, h1, h2, h3, putSlot, hj]

theorem shouldWriteBlock_none (h : b.WF) {off : ℕ} (hp : b.slotOf x = none) :
    b.shouldWriteBlock off x = .ok false := by
  simp [shouldWriteBlock, h.slotOf_eq_none.1 hp]

theorem shouldWriteBlock_spec (h : b.WF) {off : ℕ} {s : BlockState} (hp : b.slotOf x = some p)
    (hs : p.blocksState[off / b.blockLength]? = some s) :
    b.shouldWriteBlock off x = .ok (s == .requested || s == .dontHave) := by
  obtain ⟨j, hj, hbj, -⟩ := h.slotOf_eq_some hp
  have h1 : mapAt b.pieceBufferMap x = .ok j := mapAt_eq_ok.2 hj
  have h2 : vecAt b.buffer j = .ok p := vecAt_eq_ok.2 hbj
  have h3 : vecAt p.blocksState (off / b.blockLength) = .ok s := vecAt_eq_ok.2 hs
  simp [shouldWriteBlock, hj, h1, h2, h3]

/-- the slot of a buffered piece is reached through an `int` without a fault -/
theorem WF.slot_reached (h : b.WF) (hp : b.slotOf x = some p) :
    ∃ j, b.pieceBufferMap.lookup x = some j ∧ b.buffer[j]? = some p ∧ mapAt b.pieceBufferMap x = .ok j ∧ toInt j = j ∧
      vecIdxInt b.buffer (j : ℤ) = .ok p ∧ assert (b.pieceBufferMap.lookup x).isSome = .ok () := by
  obtain ⟨j, hj, hbj, hsm, -⟩ := h.slotOf_eq_some hp
  refine ⟨j, hj, hbj, mapAt_eq_ok.2 hj, toInt_of_lt hsm, ?_, ?_⟩
  · rw [vecIdxInt_natCast]
    exact vecIdx_eq_ok.2 hbj
  · rw [hj]
    rfl

theorem removePieceFromBuffer_spec (h : b.WF) (hp : b.slotOf x = some p) :
    b.removePieceFromBuffer x = .ok (b.dropSlot x) := by
  obtain ⟨j, hj, hbj, h1, h2, h3, h4⟩ := h.slot_reached hp
  have hset : (b.buffer.modify j fun p => { p with empty := true }) = b.buffer.set j { p with empty := true } := by
    rw [List.modify_eq_set_getElem?, hbj]; rfl
  unfold removePieceFromBuffer dropSlot
  rw [h4, ok_bind, h1, ok_bind, h2, h3, ok_bind, hj]
  simp only [hset]
  rfl

theorem clearAllRequested_spec (h : b.WF) (hp : b.slotOf x = some p) :
    b.clearAllRequested x = .ok (b.putSlot x { p with blocksState := clearRequested p.blocksState }) := by
  obtain ⟨j, hj, -, h1, h2, h3, h4⟩ := h.slot_reached hp
  unfold clearAllRequested putSlot
  rw [h4, ok_bind, h1, ok_bind, h2, h3, ok_bind, hj]
  rfl

/-- **Adding a piece** to a buffer that is not full takes a free slot and hands the piece a fresh one: every block
DONT_HAVE, the data string of the piece's length (its bytes are whatever the slot held). It fails only when the first
free slot is numbered 2^31 or more, and then at least that many pieces are in the buffer. -/
theorem addPieceToBuffer_spec (h : b.WF) (hx : b.slotOf x = none) (hf : b.isFull = false) (numBlocks pieceLength : ℕ) :
    (∃ b' data, b.addPieceToBuffer x numBlocks pieceLength = .ok (true, b') ∧ b'.WF ∧ data.length = pieceLength ∧
      b'.slotOf = Function.update b.slotOf x (some ⟨x, data, List.replicate numBlocks .dontHave, false⟩) ∧
      b'.pieceBufferMap.keys.length = b.pieceBufferMap.keys.length + 1 ∧ b'.buffer.length = b.buffer.length ∧
      b'.blockLength = b.blockLength) ∨
    (b.addPieceToBuffer x numBlocks pieceLength = .error .badIndex ∧ 2 ^ 31 ≤ b.pieceBufferMap.keys.length) := by
  have hne : b.pieceBufferMap.keys.length ≠ b.buffer.length := fun e => by simp [isFull, e] at hf
  obtain ⟨i, p, hfi, hbi, hpe, hile⟩ := h.exists_free hne
  have hidx : b.emptyIdx = toInt i := by simp [emptyIdx, hfi]
  have hw := h.width
  by_cases hi : i < 2 ^ 31
  · left
    have hslot : vecIdxInt b.buffer b.emptyIdx = .ok p := by
      rw [hidx, toInt_of_lt hi, vecIdxInt_natCast]
      exact vecIdx_eq_ok.2 hbi
    have hnat : b.emptyIdx.toNat = i := by rw [hidx, toInt_of_lt hi, Int.toNat_natCast]
    have hblocks : ((resize p.blocksState numBlocks .haveBlock).map fun _ => BlockState.dontHave) =
        List.replicate numBlocks .dontHave := by simp
    have hnew : x ∉ b.pieceBufferMap := AList.lookup_eq_none.1 (h.slotOf_eq_none.1 hx)
    set q : BufferPiece := ⟨x, resize p.data pieceLength 0, List.replicate numBlocks .dontHave, false⟩ with hq
    have hadd : b.addPieceToBuffer x numBlocks pieceLength = .ok (true, b.takeSlot i q) := by
      unfold addPieceToBuffer
      rw [if_neg hne, hslot, ok_bind, hnat, hblocks]
      rfl
    exact ⟨b.takeSlot i q, resize p.data pieceLength 0, hadd, h.takeSlot hbi hpe hnew rfl hi, length_resize _ _ _,
      h.slotOf_takeSlot hbi hpe, length_keys_takeSlot hnew, List.length_set, rfl⟩
  · right
    refine ⟨?_, by omega⟩
    have hilt : i < b.buffer.length := (List.getElem?_eq_some_iff.1 hbi).1
    have hneg : ¬ 0 ≤ b.emptyIdx := by
      rw [hidx]
      have := toInt_neg (n := i) (by omega) (by omega)
      omega
    unfold addPieceToBuffer
    rw [if_neg hne, vecIdxInt, if_neg hneg]
    rfl

end Spec

end Buffer

end SimpleTorrent
