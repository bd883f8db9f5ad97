/-
Honest peers: when every block that arrives carries the right bytes, pieces are put together correctly.

`Filled T s` ties the bytes of each slot to the marks of its blocks: wherever a block is marked HAVE, the slot holds
the bytes of the content `T`. Slots are recycled, so nothing is said about the other bytes.

- `Filled.deliver`, `Filled.choice`, `Filled.retrieve`: what can happen to a slot keeps it filled.
- `honest_reassembly`: verification never fails, what is saved is the content, and a piece in the buffer becomes
  COMPLETED with the delivery of its last block, and not otherwise.
-/
import SimpleTorrent.Properties.Coherence

namespace SimpleTorrent

open Checked Buffer Splice Store

/-! ## Slots filled with the right bytes -/

namespace Store

variable {ι π : Type} {L : Layout ι} {T : ι → Bytes}

/-- the bytes of block `k` of a content -/
def blockOf (L : Layout ι) (content : Bytes) (k : ℕ) : Bytes := (content.drop (k * L.blockLength)).take L.blockLength

/-- a slot for piece `x` with the right bytes in each block marked HAVE -/
def SlotFilled (L : Layout ι) (T : ι → Bytes) (x : ι) (sl : Slot) : Prop :=
  ∀ i < L.len x, sl.blocks[i / L.blockLength]? = some .haveBlock → sl.data[i]? = (T x)[i]?

theorem length_blockOf (L : Layout ι) {x : ι} {k : ℕ} (hT : (T x).length = L.len x) :
    (blockOf L (T x) k).length = min L.blockLength (L.len x - k * L.blockLength) := by simp [blockOf, hT]

/-- writing block `k` fills it, and leaves the others alone -/
theorem SlotFilled.set {x : ι} {sl : Slot} (h : SlotFilled L T x sl) (hd : sl.data.length = L.len x)
    (hT : (T x).length = L.len x) {k : ℕ} (hk : k * L.blockLength < L.len x) :
    SlotFilled L T x ⟨sl.blocks.set k .haveBlock, splice sl.data (k * L.blockLength) (blockOf L (T x) k)⟩ := by
  intro i hi hi'
  have hpos := L.blockLength_pos
  have hlen := length_blockOf L (k := k) hT
  have hdm := Nat.div_add_mod i L.blockLength
  have hmod := Nat.mod_lt i hpos
  rw [getElem?_splice (by omega)]
  by_cases hik : i / L.blockLength = k
  · have hrange := (Nat.div_eq_iff hpos).1 hik
    rw [if_pos (by omega), blockOf, List.getElem?_take_of_lt (by omega), List.getElem?_drop]
    congr 1
    omega
  · rw [if_neg fun hr => hik ((Nat.div_eq_iff hpos).2 (by omega))]
    apply h i hi
    rwa [List.getElem?_set_ne fun e => hik e.symm] at hi'

/-- a slot whose blocks are all HAVE holds the content -/
theorem SlotFilled.complete {x : ι} {sl : Slot} (h : SlotFilled L T x sl) (hall : ∀ b ∈ sl.blocks, b = .haveBlock)
    (hb : sl.blocks.length = L.blocks x) (hd : sl.data.length = L.len x) (hT : (T x).length = L.len x) :
    sl.data = T x := by
  refine List.ext_getElem? ?_
  intro i
  by_cases hi : i < L.len x
  · have hk : i / L.blockLength < sl.blocks.length := hb ▸ L.div_lt_blocks hi
    exact h i hi (by rw [List.getElem?_eq_getElem hk, hall _ (List.getElem_mem hk)])
  · rw [List.getElem?_eq_none (by omega), List.getElem?_eq_none (by omega)]

/-! ## Stores with filled slots -/

variable [DecidableEq ι] {sha1 : Bytes → Bytes} {s t : Store ι π}

def Filled (L : Layout ι) (T : ι → Bytes) (s : Store ι π) : Prop := ∀ x sl, s.slot x = some sl → SlotFilled L T x sl

theorem Filled.choice [DecidableEq π] (h : s.Filled L T) {full : Prop} {p : π} {S : Set ι} {r : Option ι}
    (hc : Choice L full p S s r t) : t.Filled L T := by
  cases hc with
  | affinity x ha => exact h
  | opened x data ha hx hS hfull hd =>
    intro y sl hy i hi hk
    by_cases hyx : y = x
    · subst hyx
      -- a fresh slot has no block
      simp only [openPiece, bind_slot, setState_slot, log_slot, setSlot_slot, Function.update_self,
        Option.some.injEq] at hy
      subst hy
      rw [List.getElem?_replicate] at hk
      split_ifs at hk
      cases hk
    · exact h y sl (by simpa [openPiece, hyx] using hy) i hi hk
  | bound x ha hx hS hstart => exact h
  | reopened x sl₀ ha hx hsl hS hstart =>
    intro y sl hy i hi hk
    by_cases hyx : y = x
    · subst hyx
      simp only [reopen, setState_slot, log_slot, setSlot_slot, Function.update_self, Option.some.injEq] at hy
      subst hy
      rw [getElem?_clearRequested, Option.map_eq_some_iff] at hk
      obtain ⟨b, hb, hbk⟩ := hk
      have hb' : b = .haveBlock := by cases b <;> simp_all
      exact h y sl₀ hsl i hi (hb' ▸ hb)
    · exact h y sl (by simpa [reopen, hyx] using hy) i hi hk
  | nothing ha hopen hstart => exact h

theorem Filled.retrieve (h : s.Filled L T) {x : ι} {sl₀ : Slot} (hsl : s.slot x = some sl₀) :
    (s.retrieve x sl₀).Filled L T := by
  intro y sl hy i hi hk
  rw [retrieve_slot] at hy
  rcases update_eq_some hy with ⟨rfl, hnew⟩ | ⟨-, hy⟩
  · cases hnew
    rw [getElem?_markRequested] at hk
    split_ifs at hk
    · cases hk
    · exact h y sl₀ hsl i hi hk
  · exact h y sl hy i hi hk

/-- a delivery of the right bytes: the piece completes with its content, or its slot stays filled -/
theorem Filled.deliver_cases (h : s.Filled L T) (hinv : s.Inv L) {x : ι} {sl : Slot} (hsl : s.slot x = some sl)
    (hT : (T x).length = L.len x) (hsha : sha1 (T x) = L.hash x) {k : ℕ} (hk : k * L.blockLength < L.len x) :
    (∀ b ∈ sl.blocks.set k .haveBlock, b = .haveBlock) ∧
        s.deliver L sha1 x sl (k * L.blockLength) (blockOf L (T x) k) =
          ((s.log (.writeBlock x k)).log (.savePiece x (L.offset x) (T x))).close x .completed ∨
      ¬ (∀ b ∈ sl.blocks.set k .haveBlock, b = .haveBlock) ∧
        s.deliver L sha1 x sl (k * L.blockLength) (blockOf L (T x) k) = (s.log (.writeBlock x k)).setSlot x
          (some ⟨sl.blocks.set k .haveBlock, splice sl.data (k * L.blockLength) (blockOf L (T x) k)⟩) := by
  have hdiv : k * L.blockLength / L.blockLength = k := Nat.mul_div_cancel k L.blockLength_pos
  have hb := (hinv.piece x).blocks sl hsl
  have hd := (hinv.piece x).data sl hsl
  have hlen := length_blockOf L (k := k) hT
  have hset := (h x sl hsl).set hd hT hk
  have hdata : (∀ b ∈ sl.blocks.set k .haveBlock, b = .haveBlock) →
      splice sl.data (k * L.blockLength) (blockOf L (T x) k) = T x := fun hall =>
    hset.complete hall (by simpa using hb) (by rw [length_splice (by omega), hd]) hT
  have hcases := Store.deliver_cases L sha1 s x sl (k * L.blockLength) (blockOf L (T x) k)
  rw [hdiv] at hcases
  rcases hcases with ⟨hall, ⟨-, ht⟩ | ⟨hne, -⟩⟩ | hrest
  · rw [hdata hall] at ht
    exact Or.inl ⟨hall, ht⟩
  · rw [hdata hall] at hne
    exact absurd hsha hne
  · exact Or.inr hrest

section Delivery

variable (h : s.Filled L T) (hinv : s.Inv L) {x : ι} {sl : Slot} (hsl : s.slot x = some sl)
  (hT : (T x).length = L.len x) (hsha : sha1 (T x) = L.hash x) {k : ℕ} (hk : k * L.blockLength < L.len x)

include h hinv hsl hT hsha hk

/-- a delivery of the right bytes completes an open piece if no block is left -/
theorem Filled.deliver_completed_iff (hopen : s.state x ≠ some .completed) :
    (s.deliver L sha1 x sl (k * L.blockLength) (blockOf L (T x) k)).state x = some .completed ↔
      ∀ b ∈ sl.blocks.set k .haveBlock, b = .haveBlock := by
  rcases h.deliver_cases hinv hsl hT hsha hk with ⟨hfull, ht⟩ | ⟨hfull, ht⟩
  · rw [ht]
    exact iff_of_true (by simp [close]) hfull
  · rw [ht]
    exact iff_of_false hopen hfull

theorem Filled.deliver_state_of_ne {y : ι} (hne : y ≠ x) :
    (s.deliver L sha1 x sl (k * L.blockLength) (blockOf L (T x) k)).state y = s.state y := by
  rcases h.deliver_cases hinv hsl hT hsha hk with ⟨-, ht⟩ | ⟨-, ht⟩
  · rw [ht]
    simp only [close, setSlot_state, dropAffinity_state, setState_state, log_state, Function.update_of_ne hne]
  · rw [ht]
    rfl

end Delivery

/-- what honest deliveries keep: filled slots, no mismatch, and saves of the content only -/
structure Honest (L : Layout ι) (T : ι → Bytes) (s : Store ι π) : Prop where
  filled : s.Filled L T
  verified : ∀ x, .hashMismatch x ∉ s.trace
  saved : ∀ x off d, .savePiece x off d ∈ s.trace → d = T x

theorem Honest.choice [DecidableEq π] (h : s.Honest L T) {full : Prop} {p : π} {S : Set ι} {r : Option ι}
    (hc : Choice L full p S s r t) : t.Honest L T := by
  obtain ⟨l, hl, hle⟩ := hc.trace
  refine ⟨h.filled.choice hc, fun x hx => ?_, fun x off d hx => ?_⟩ <;>
    rw [hl, List.mem_append] at hx <;> rcases hx with hx | hx
  · exact h.verified x hx
  · obtain ⟨y, hy | hy⟩ := hle _ hx <;> cases hy
  · exact h.saved x off d hx
  · obtain ⟨y, hy | hy⟩ := hle _ hx <;> cases hy

theorem Honest.retrieve (h : s.Honest L T) {x : ι} {sl : Slot} (hsl : s.slot x = some sl) :
    (s.retrieve x sl).Honest L T := by
  refine ⟨h.filled.retrieve hsl, fun y hy => h.verified y ?_, fun y off d hy => h.saved y off d ?_⟩
  · simpa [retrieve_trace] using hy
  · simpa [retrieve_trace] using hy

theorem Honest.deliver (h : s.Honest L T) (hinv : s.Inv L) {x : ι} {sl : Slot} (hsl : s.slot x = some sl)
    (hT : (T x).length = L.len x) (hsha : sha1 (T x) = L.hash x) {k : ℕ} (hk : k * L.blockLength < L.len x) :
    (s.deliver L sha1 x sl (k * L.blockLength) (blockOf L (T x) k)).Honest L T := by
  rcases h.filled.deliver_cases hinv hsl hT hsha hk with ⟨-, ht⟩ | ⟨-, ht⟩ <;> rw [ht]
  · refine ⟨?_, fun y hy => h.verified y (by simpa [close] using hy), ?_⟩
    · intro y sl' hy
      by_cases hyx : y = x
      · subst hyx; simp [close] at hy
      · exact h.filled y sl' (by simpa [close, hyx] using hy)
    · intro y off d hy
      simp only [close, setSlot_trace, dropAffinity_trace, setState_trace, log_trace, List.append_assoc,
        List.mem_append, List.mem_singleton] at hy
      rcases hy with hy | hy | hy
      · exact h.saved y off d hy
      · cases hy
      · cases hy; rfl
  · refine ⟨?_, fun y hy => h.verified y (by simpa using hy),
      fun y off d hy => h.saved y off d (by simpa using hy)⟩
    intro y sl' hy
    by_cases hyx : y = x
    · subst hyx
      simp only [setSlot_slot, Function.update_self, Option.some.injEq] at hy
      subst hy
      exact (h.filled y sl hsl).set ((hinv.piece y).data sl hsl) hT hk
    · exact h.filled y sl' (by simpa [hyx] using hy)

end Store

/-! ## Honest runs of the manager -/

namespace PieceManager

variable {c : Config} {sha1 : Bytes → Bytes} {s t : PieceManager} {T : ℕ → Bytes}

/-- the content of each piece has the piece's length and hash -/
def Content (c : Config) (sha1 : Bytes → Bytes) (T : ℕ → Bytes) : Prop :=
  ∀ x < c.numPieces, (T x).length = currentPieceLength c.data x ∧ some (sha1 (T x)) = c.data.pieceHashes[x]?

/-- every `add_block` carries some block of some piece, with the right bytes -/
def Op.Honest (c : Config) (T : ℕ → Bytes) : Op → Prop
  | .addBlock _ block => ∃ k, block.blockOffset = k * c.layout.blockLength ∧
      block.data = blockOf c.layout (T block.pieceIndex) k
  | _ => True

theorem Content.of_slot (hT : Content c sha1 T) (h : s.Inv c sha1) {x : ℕ} {sl : Slot}
    (hsl : s.toStore.slot x = some sl) : (T x).length = c.layout.len x ∧ sha1 (T x) = c.layout.hash x := by
  obtain ⟨q, hq, rfl⟩ := slot_toStore hsl
  obtain ⟨m, hm, -⟩ := h.slotOf_eq_some hq
  obtain ⟨hlen, hsha⟩ := hT x (h.shape.size ▸ (List.getElem?_eq_some_iff.1 hm).1)
  rw [← h.pieceHash hm, Option.some.injEq] at hsha
  exact ⟨hlen, hsha.trans (h.shape.piece x m hm).1⟩

/-- an honest call keeps the store honest -/
theorem step_honest (hT : Content c sha1 T) (h : s.Inv c sha1) (hh : s.toStore.Honest c.layout T) {o : Op}
    (ho : o.Honest c T) (hs : step sha1 s o = .ok t) : t.toStore.Honest c.layout T := by
  cases o with
  | updatePieceFrequencies bitfield p => cases hs; exact ⟨hh.filled, hh.verified, hh.saved⟩
  | removePeer p => cases hs; exact ⟨hh.filled, hh.verified, hh.saved⟩
  | selectNextBlock p order =>
    obtain ⟨r, hu⟩ := step_select hs
    rcases selectNextBlock_cases h hu with
      ⟨-, -, rfl⟩ | ⟨bf, chosen, v, -, hchoice, -, -, ⟨-, -, rfl⟩ | ⟨x, sl, -, -, hsl, -, hstore⟩⟩
    · exact hh
    · exact hh.choice hchoice
    · rw [hstore]
      exact (hh.choice hchoice).retrieve hsl
  | addBlock p block =>
    obtain ⟨t', ht', -, hcase⟩ := addBlock_spec h p block
    obtain rfl : t' = t := Except.ok.inj (ht'.symm.trans hs)
    rcases hcase with ⟨rfl, -⟩ | ⟨sl, hsl, hoff, -, -, hstore⟩
    · exact hh
    · obtain ⟨k, hk, hdata⟩ := ho
      obtain ⟨hlen, hsha⟩ := hT.of_slot h hsl
      rw [hk] at hoff
      rw [hstore, hk, hdata]
      exact hh.deliver h.good.inv hsl hlen hsha hoff

theorem all_set_iff {blocks : List BlockState} {k : ℕ} : (∀ b ∈ blocks.set k .haveBlock, b = .haveBlock) ↔
    ∀ j < blocks.length, j ≠ k → blocks[j]? = some .haveBlock := by
  constructor
  · intro h j hj hne
    have hget : (blocks.set k .haveBlock)[j]? = some blocks[j] := by
      rw [List.getElem?_set_ne fun e => hne e.symm, List.getElem?_eq_getElem hj]
    rw [List.getElem?_eq_getElem hj, h _ (List.mem_of_getElem? hget)]
  · intro h b hb
    obtain ⟨j, hj, rfl⟩ := List.getElem_of_mem hb
    rw [List.length_set] at hj
    by_cases hjk : j = k
    · subst hjk; simp
    · have hget := h j hj hjk
      rw [List.getElem?_eq_getElem hj, Option.some.injEq] at hget
      rw [List.getElem_set_ne fun e => hjk e.symm, hget]

/-- the call delivers the one block of piece `x` that is not HAVE yet -/
def LastBlock (s : PieceManager) (x : ℕ) : Op → Prop
  | .addBlock _ block => block.pieceIndex = x ∧ ∃ q, s.buffer.slotOf x = some q ∧
      block.blockOffset / s.buffer.blockLength < q.blocksState.length ∧
      q.blocksState[block.blockOffset / s.buffer.blockLength]? ≠ some .haveBlock ∧
      ∀ j < q.blocksState.length, j ≠ block.blockOffset / s.buffer.blockLength → q.blocksState[j]? = some .haveBlock
  | _ => False

/-- choosing a piece and requesting a block completes nothing -/
theorem select_completed_iff (h : s.Inv c sha1) {p : ℕ} {order : List ℕ} {r : Option BlockRequest}
    (hr : s.selectNextBlock p order = .ok (r, t)) (x : ℕ) :
    t.stateOf x = some .completed ↔ s.stateOf x = some .completed := by
  have hsaved : savedPieces t.trace = savedPieces s.trace := by
    rcases selectNextBlock_cases h hr with
      ⟨-, -, rfl⟩ | ⟨bf, chosen, u, -, hchoice, -, -, ⟨-, -, rfl⟩ | ⟨y, sl, -, -, -, -, hstore⟩⟩
    · rfl
    · exact hchoice.savedPieces
    · exact (congrArg (fun v => savedPieces v.trace) hstore).trans ((savedPieces_retrieve y sl).trans hchoice.savedPieces)
  have hs := h.good.saves.completed x
  have ht := ((selectNextBlock_moves h hr).inv h).good.saves.completed x
  rw [toStore_trace] at hs ht
  rw [show t.stateOf x = t.toStore.state x from rfl, show s.stateOf x = s.toStore.state x from rfl, ht, hs, hsaved]

/-- a block that is ignored is not the last one: it lies outside its piece, or is HAVE already -/
theorem not_lastBlock_of_ignored (hT : Content c sha1 T) (h : s.Inv c sha1) {p : ℕ} {block : Block}
    (ho : (Op.addBlock p block).Honest c T) (hign : ∀ sl, s.toStore.slot block.pieceIndex = some sl →
      block.blockOffset < c.layout.len block.pieceIndex →
      block.blockOffset + block.data.length ≤ c.layout.len block.pieceIndex →
      sl.blocks[block.blockOffset / c.layout.blockLength]? = some .haveBlock) (x : ℕ) :
    ¬ LastBlock s x (.addBlock p block) := by
  obtain ⟨k, hk, hdata⟩ := ho
  have hdiv : block.blockOffset / c.layout.blockLength = k := by
    rw [hk]
    exact Nat.mul_div_cancel k c.layout.blockLength_pos
  intro hlast
  obtain ⟨rfl, q, hq, hlt, hne, -⟩ := hlast
  rw [h.shape.bufferBlock, hdiv] at hlt hne
  obtain ⟨m, -, -, hblocks, -⟩ := h.slotOf_eq_some hq
  have hlen := (hT.of_slot h (toStore_slot hq)).1
  have hoff := c.layout.mul_lt_len (hblocks ▸ hlt)
  have hfit := length_blockOf c.layout (k := k) hlen
  refine hne (hdiv ▸ hign _ (toStore_slot hq) (hk ▸ hoff) ?_)
  rw [hk, hdata, hfit]
  omega

/-- a block for a slot that is not HAVE fills the piece exactly if it is the last one -/
theorem lastBlock_iff_filled {p k : ℕ} {block : Block} {q : BufferPiece}
    (hk : block.blockOffset / s.buffer.blockLength = k) (hq : s.buffer.slotOf block.pieceIndex = some q)
    (hlt : k < q.blocksState.length) (hnot : q.blocksState[k]? ≠ some .haveBlock) :
    LastBlock s block.pieceIndex (.addBlock p block) ↔ ∀ b ∈ q.blocksState.set k .haveBlock, b = .haveBlock := by
  rw [all_set_iff]
  simp only [LastBlock, hk]
  constructor
  · intro hlast
    obtain ⟨-, r, hr, -, -, hrest⟩ := hlast
    rw [hq, Option.some.injEq] at hr
    exact hr ▸ hrest
  · exact fun hrest => ⟨trivial, q, hq, hlt, hnot, hrest⟩

/-- an honest call completes an open piece exactly if it delivers its last block -/
theorem completed_iff_lastBlock (hT : Content c sha1 T) (h : s.Inv c sha1) (hh : s.toStore.Honest c.layout T) {o : Op}
    (ho : o.Honest c T) (hs : step sha1 s o = .ok t) {x : ℕ} {q : BufferPiece} (hq : s.buffer.slotOf x = some q) :
    t.stateOf x = some .completed ↔ LastBlock s x o := by
  have hopen : s.stateOf x ≠ some .completed := by
    obtain ⟨m, hm, hms, -⟩ := h.slotOf_eq_some hq
    rcases hms with hms | hms <;> simp [stateOf, hm, hms]
  cases o with
  | updatePieceFrequencies bitfield p => cases hs; exact iff_of_false hopen id
  | removePeer p => cases hs; exact iff_of_false hopen id
  | selectNextBlock p order =>
    obtain ⟨r, hu⟩ := step_select hs
    rw [select_completed_iff h hu]
    exact iff_of_false hopen id
  | addBlock p block =>
    obtain ⟨t', ht', -, hcase⟩ := addBlock_spec h p block
    obtain rfl : t' = t := Except.ok.inj (ht'.symm.trans hs)
    rcases hcase with ⟨rfl, hign⟩ | ⟨sl, hsl, hoff, -, hnot, hstore⟩
    · exact iff_of_false hopen (not_lastBlock_of_ignored hT h ho hign x)
    · obtain ⟨k, hk, hdata⟩ := ho
      obtain ⟨hlen, hsha⟩ := hT.of_slot h hsl
      have hdiv : block.blockOffset / c.layout.blockLength = k := by
        rw [hk]
        exact Nat.mul_div_cancel k c.layout.blockLength_pos
      rw [hdiv] at hnot
      rw [hk] at hoff
      rw [hk, hdata] at hstore
      rw [show t'.stateOf x = t'.toStore.state x from rfl, hstore]
      by_cases hx : block.pieceIndex = x
      · subst hx
        obtain ⟨q', hq', rfl⟩ := slot_toStore hsl
        obtain ⟨-, -, -, hblocks, -⟩ := h.slotOf_eq_some hq'
        have hlt : k < q'.blocksState.length := by
          have := c.layout.div_lt_blocks hoff
          rw [Nat.mul_div_cancel k c.layout.blockLength_pos] at this
          omega
        rw [hh.filled.deliver_completed_iff h.good.inv hsl hlen hsha hoff hopen,
          lastBlock_iff_filled (h.shape.bufferBlock ▸ hdiv) hq' hlt hnot]
        rfl
      · rw [hh.filled.deliver_state_of_ne h.good.inv hsl hlen hsha hoff fun e => hx e.symm]
        exact iff_of_false hopen fun hlast => hx hlast.1

/-- every honest run leads to an honest store -/
theorem run_honest (hT : Content c sha1 T) {ops : List Op} (hops : ∀ o ∈ ops, o.Narrow c ∧ o.Honest c T)
    (h : c.run sha1 ops = .ok s) : s.Inv c sha1 ∧ s.toStore.Honest c.layout T := by
  obtain ⟨s₀, hnew, hshape, hstore, -⟩ := new_spec c
  rw [Config.run, run, hnew, ok_bind] at h
  have h0 : s₀.Inv c sha1 ∧ s₀.toStore.Honest c.layout T := by
    refine ⟨⟨hshape, hstore ▸ emptyStore_good c sha1⟩, ?_⟩
    rw [hstore]
    exact ⟨by simp [emptyStore, Filled], by simp [emptyStore], by simp [emptyStore]⟩
  refine runM_inv (I := fun s => s.Inv c sha1 ∧ s.toStore.Honest c.layout T) (P := fun o => o.Narrow c ∧ o.Honest c T)
    ?_ h0 hops h
  exact fun u o v hi ho hv => ⟨(step_moves hi.1 ho.1 hv).inv hi.1, step_honest hT hi.1 hi.2 ho.2 hv⟩

/-- **Honest reassembly.** When every block that arrives carries the right bytes, in whatever order, verification never
fails, only the content of a piece is saved for it, and a piece in the buffer becomes COMPLETED with the call that
delivers its last block, and with no other. -/
theorem honest_reassembly (c : Config) (sha1 : Bytes → Bytes) (T : ℕ → Bytes) (hT : Content c sha1 T) (ops : List Op)
    (hops : ∀ o ∈ ops, o.Narrow c ∧ o.Honest c T) (s : PieceManager) (h : c.run sha1 ops = .ok s) :
    (∀ x, .hashMismatch x ∉ s.trace) ∧ (∀ x off d, .savePiece x off d ∈ s.trace → d = T x) ∧
      ∀ o t, o.Honest c T → step sha1 s o = .ok t → ∀ x ∈ s.buffer.pieceBufferMap,
        (t.stateOf x = some .completed ↔ LastBlock s x o) := by
  obtain ⟨hinv, hh⟩ := run_honest hT hops h
  refine ⟨hh.verified, hh.saved, ?_⟩
  intro o t ho hs x hx
  obtain ⟨q, hq⟩ := Option.isSome_iff_exists.1 (hinv.shape.wf.slotOf_isSome.2 hx)
  exact completed_iff_lastBlock hT hinv hh ho hs hq

theorem onePiece_content : Content onePiece id (fun _ => [1, 2]) := by
  intro x hx
  have h1 : onePiece.numPieces = 1 := rfl
  obtain rfl : x = 0 := by omega
  exact ⟨by decide, rfl⟩

theorem onePiece_honest : ∀ o ∈ onePieceOps, o.Narrow onePiece ∧ o.Honest onePiece fun _ => [1, 2] := by
  have h1 : onePiece.numPieces < 2 ^ 32 := by decide
  intro o ho
  simp only [onePieceOps, List.mem_cons, List.not_mem_nil, or_false] at ho
  rcases ho with rfl | rfl | rfl | rfl
  · exact ⟨Or.inl h1, trivial⟩
  · exact ⟨trivial, trivial⟩
  · exact ⟨trivial, 1, by decide, by decide⟩
  · exact ⟨trivial, 0, by decide, by decide⟩

theorem honest_reassembly_onePiece : ∃ s, onePiece.run id onePieceOps = .ok s ∧
    (∀ x, .hashMismatch x ∉ s.trace) ∧ ∀ x off d, .savePiece x off d ∈ s.trace → d = [1, 2] := by
  obtain ⟨s, hs⟩ := onePiece_run
  obtain ⟨h1, h2, -⟩ := honest_reassembly onePiece id _ onePiece_content onePieceOps onePiece_honest s hs
  exact ⟨s, hs, h1, h2⟩

end PieceManager

end SimpleTorrent
