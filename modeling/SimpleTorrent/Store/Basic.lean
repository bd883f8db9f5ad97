/-
The piece store: what `PieceManager` and `Buffer` are for, without slots, hash maps, bitfield vectors or failures.

A store holds for each piece its state and, while it is being downloaded, one slot with the marks of its blocks and its
bytes. Peers announce sets of pieces, and a peer may be bound to one open piece. Pieces and peers are arbitrary types.
`Step` has one constructor per thing that can happen to a store; the manager is shown to do nothing else (`Refinement`).

- `Choice`: the piece that a peer is given, and what becomes of the store.
- `retrieve_slot`, `deliver_cases` and the like: what each operation does.
- `Inv`: the links between states, slots, marks and affinities. `step_inv`: every step keeps them.
-/
import SimpleTorrent.Model.PieceManager

namespace SimpleTorrent

open Buffer Splice

/-- the marks and the bytes of one open piece -/
structure Slot where
  blocks : List BlockState
  data : Bytes

/-- what the torrent fixes for each piece -/
structure Layout (ι : Type) where
  blockLength : ℕ
  len : ι → ℕ
  blocks : ι → ℕ
  offset : ι → ℕ
  hash : ι → Bytes
  blockLength_pos : 0 < blockLength
  len_pos : ∀ x, 0 < len x
  blocks_eq : ∀ x, blocks x = (len x + blockLength - 1) / blockLength

theorem Layout.blocks_pos {ι : Type} (L : Layout ι) (x : ι) : 0 < L.blocks x := by
  rw [L.blocks_eq]
  exact Nat.div_pos (by have := L.len_pos x; have := L.blockLength_pos; omega) L.blockLength_pos

/-- a byte of the piece lies in one of its blocks -/
theorem Layout.div_lt_blocks {ι : Type} (L : Layout ι) {x : ι} {off : ℕ} (h : off < L.len x) :
    off / L.blockLength < L.blocks x := by
  have hb := L.blockLength_pos
  rw [L.blocks_eq, Nat.div_lt_iff_lt_mul hb]
  have := Nat.lt_mul_div_succ (L.len x + L.blockLength - 1) hb
  rw [Nat.mul_comm, Nat.add_mul, Nat.mul_comm (_ / _)] at this
  rw [Nat.mul_comm]
  omega

/-- a block of the piece starts inside it -/
theorem Layout.mul_lt_len {ι : Type} (L : Layout ι) {x : ι} {k : ℕ} (h : k < L.blocks x) :
    k * L.blockLength < L.len x := by
  have hb := L.blockLength_pos
  rw [L.blocks_eq, Nat.lt_iff_add_one_le, Nat.le_div_iff_mul_le hb, Nat.add_mul] at h
  omega

/-- where block `k` of a piece of `len` bytes ends -/
def blockEnd (blockLength len k : ℕ) : ℕ := min ((k + 1) * blockLength) len

/-- blocks are not empty -/
theorem Layout.mul_lt_blockEnd {ι : Type} (L : Layout ι) {x : ι} {k : ℕ} (h : k < L.blocks x) :
    k * L.blockLength < blockEnd L.blockLength (L.len x) k := by
  have hb := L.blockLength_pos
  refine Nat.lt_min.2 ⟨?_, L.mul_lt_len h⟩
  rw [Nat.succ_mul]
  omega

/-- a block that another one follows has the full length -/
theorem Layout.blockEnd_of_succ_lt {ι : Type} (L : Layout ι) {x : ι} {k : ℕ} (h : k + 1 < L.blocks x) :
    blockEnd L.blockLength (L.len x) k = (k + 1) * L.blockLength := Nat.min_eq_left (L.mul_lt_len h).le

/-- the last block ends with the piece -/
theorem Layout.blockEnd_last {ι : Type} (L : Layout ι) {x : ι} {k : ℕ} (h : k + 1 = L.blocks x) :
    blockEnd L.blockLength (L.len x) k = L.len x := by
  apply Nat.min_eq_right
  rw [h, L.blocks_eq]
  have hlt := Nat.lt_mul_div_succ (L.len x + L.blockLength - 1) L.blockLength_pos
  rw [Nat.mul_succ, Nat.mul_comm] at hlt
  omega

structure Store (ι π : Type) where
  /-- `none`: there is no such piece -/
  state : ι → Option PieceState
  slot : ι → Option Slot
  affinity : π → Option ι
  peers : π → Option (Set ι)
  trace : List (Event ι)

namespace Store

variable {ι π : Type}

@[ext] theorem ext' {s t : Store ι π} (h1 : s.state = t.state) (h2 : s.slot = t.slot) (h3 : s.affinity = t.affinity)
    (h4 : s.peers = t.peers) (h5 : s.trace = t.trace) : s = t := by
  cases s; cases t; simp_all

/-! ## Steps -/

section Steps

variable [DecidableEq ι] [DecidableEq π]

def log (s : Store ι π) (e : Event ι) : Store ι π := { s with trace := s.trace ++ [e] }

/-- no peer is bound to `x` any more -/
def dropAffinity (s : Store ι π) (x : ι) : Store ι π :=
  { s with affinity := fun p => if s.affinity p = some x then none else s.affinity p }

def setState (s : Store ι π) (x : ι) (st : PieceState) : Store ι π :=
  { s with state := Function.update s.state x (some st) }

def setSlot (s : Store ι π) (x : ι) (sl : Option Slot) : Store ι π := { s with slot := Function.update s.slot x sl }

def bind (s : Store ι π) (p : π) (x : ι) : Store ι π := { s with affinity := Function.update s.affinity p (some x) }

/-- piece `x` enters the buffer for peer `p` -/
def openPiece (L : Layout ι) (s : Store ι π) (p : π) (x : ι) (data : Bytes) : Store ι π :=
  (((s.setSlot x (some ⟨List.replicate (L.blocks x) .dontHave, data⟩)).log (.addPiece x)).setState x .buffered).bind p x

/-- peer `p` takes a piece whose blocks were all requested, and its requested blocks can be requested again -/
def reopen (s : Store ι π) (p : π) (x : ι) (sl : Slot) : Store ι π :=
  (((s.bind p x).setSlot x (some { sl with blocks := clearRequested sl.blocks })).log (.clearAllRequested x)).setState x
    .buffered

/-- the first missing block of `x`, if any, becomes requested -/
def retrieve (s : Store ι π) (x : ι) (sl : Slot) : Store ι π :=
  let s := s.setSlot x (some { sl with blocks := markRequested sl.blocks })
  let s := if allRequestedOrCompleted (markRequested sl.blocks) then (s.setState x .allRequested).dropAffinity x else s
  match firstMissing sl.blocks with
  | some k => s.log (.request x k)
  | none => s

/-- piece `x` leaves the buffer -/
def close (s : Store ι π) (x : ι) (st : PieceState) : Store ι π := ((s.setState x st).dropAffinity x).setSlot x none

/-- bytes `src` arrive for offset `off` of piece `x` -/
def deliver (L : Layout ι) (sha1 : Bytes → Bytes) (s : Store ι π) (x : ι) (sl : Slot) (off : ℕ) (src : Bytes) :
    Store ι π :=
  let blocks := sl.blocks.set (off / L.blockLength) .haveBlock
  let data := splice sl.data off src
  let s := s.log (.writeBlock x (off / L.blockLength))
  if blocks.all (· == .haveBlock) then
    if sha1 data = L.hash x then (s.log (.savePiece x (L.offset x) data)).close x .completed
    else (s.log (.hashMismatch x)).close x .notStarted
  else s.setSlot x (some ⟨blocks, data⟩)

def announce (s : Store ι π) (p : π) (S : Set ι) : Store ι π := { s with peers := Function.update s.peers p (some S) }

def removePeer (s : Store ι π) (p : π) : Store ι π :=
  { s with affinity := Function.update s.affinity p none, peers := Function.update s.peers p none }

/-- the pieces a peer with the pieces `S` can be given, and the store once the choice is made; `full` says that no piece
can be opened -/
inductive Choice (L : Layout ι) (full : Prop) (p : π) (S : Set ι) (s : Store ι π) : Option ι → Store ι π → Prop
  | affinity (x) (ha : s.affinity p = some x) : Choice L full p S s (some x) s
  | opened (x data) (ha : s.affinity p = none) (hx : s.state x = some .notStarted) (hS : x ∈ S) (hfull : ¬ full)
      (hd : data.length = L.len x) : Choice L full p S s (some x) (s.openPiece L p x data)
  | bound (x) (ha : s.affinity p = none) (hx : s.state x = some .buffered) (hS : x ∈ S)
      (hstart : full ∨ ∀ y ∈ S, s.state y ≠ some .notStarted) : Choice L full p S s (some x) (s.bind p x)
  | reopened (x sl) (ha : s.affinity p = none) (hx : s.state x = some .allRequested) (hsl : s.slot x = some sl)
      (hS : x ∈ S) (hstart : full ∨ ∀ y ∈ S, s.state y ≠ some .notStarted) :
      Choice L full p S s (some x) (s.reopen p x sl)
  | nothing (ha : s.affinity p = none) (hopen : ∀ x ∈ S, s.slot x = none)
      (hstart : full ∨ ∀ y ∈ S, s.state y ≠ some .notStarted) : Choice L full p S s none s

/-- everything that can happen to a store -/
inductive Step (L : Layout ι) (sha1 : Bytes → Bytes) (s : Store ι π) : Store ι π → Prop
  | openPiece (p x S data) (hx : s.state x = some .notStarted) (hp : s.peers p = some S) (hS : x ∈ S)
      (hd : data.length = L.len x) : Step L sha1 s (s.openPiece L p x data)
  | bind (p x S) (hx : s.state x = some .buffered) (hp : s.peers p = some S) (hS : x ∈ S) : Step L sha1 s (s.bind p x)
  | reopen (p x S sl) (hx : s.state x = some .allRequested) (hsl : s.slot x = some sl) (hp : s.peers p = some S)
      (hS : x ∈ S) : Step L sha1 s (s.reopen p x sl)
  | retrieve (x sl) (hx : s.state x = some .buffered) (hsl : s.slot x = some sl) : Step L sha1 s (s.retrieve x sl)
  | deliver (x sl off src) (hsl : s.slot x = some sl) (hoff : off < L.len x) (hlen : off + src.length ≤ L.len x)
      (hk : sl.blocks[off / L.blockLength]? ≠ some .haveBlock) : Step L sha1 s (s.deliver L sha1 x sl off src)
  | announce (p S) : Step L sha1 s (s.announce p S)
  | removePeer (p) : Step L sha1 s (s.removePeer p)

end Steps

/-! ## Projections -/

section Proj

variable (s : Store ι π) (x : ι) (p : π)

section Log

variable (e : Event ι)

@[simp] theorem log_state : (s.log e).state = s.state := rfl
@[simp] theorem log_slot : (s.log e).slot = s.slot := rfl
@[simp] theorem log_affinity : (s.log e).affinity = s.affinity := rfl
@[simp] theorem log_trace : (s.log e).trace = s.trace ++ [e] := rfl

end Log

section Bind

variable [DecidableEq π]

@[simp] theorem bind_state : (s.bind p x).state = s.state := rfl
@[simp] theorem bind_slot : (s.bind p x).slot = s.slot := rfl
@[simp] theorem bind_affinity : (s.bind p x).affinity = Function.update s.affinity p (some x) := rfl
@[simp] theorem bind_peers : (s.bind p x).peers = s.peers := rfl
@[simp] theorem bind_trace : (s.bind p x).trace = s.trace := rfl

end Bind

variable [DecidableEq ι] (st : PieceState) (sl : Option Slot)

@[simp] theorem dropAffinity_state : (s.dropAffinity x).state = s.state := rfl
@[simp] theorem dropAffinity_slot : (s.dropAffinity x).slot = s.slot := rfl
@[simp] theorem dropAffinity_trace : (s.dropAffinity x).trace = s.trace := rfl
@[simp] theorem setState_state : (s.setState x st).state = Function.update s.state x (some st) := rfl
@[simp] theorem setState_slot : (s.setState x st).slot = s.slot := rfl
@[simp] theorem setState_affinity : (s.setState x st).affinity = s.affinity := rfl
@[simp] theorem setState_trace : (s.setState x st).trace = s.trace := rfl
@[simp] theorem setSlot_state : (s.setSlot x sl).state = s.state := rfl
@[simp] theorem setSlot_slot : (s.setSlot x sl).slot = Function.update s.slot x sl := rfl
@[simp] theorem setSlot_affinity : (s.setSlot x sl).affinity = s.affinity := rfl
@[simp] theorem setSlot_trace : (s.setSlot x sl).trace = s.trace := rfl

theorem dropAffinity_eq_some {y : ι} : (s.dropAffinity x).affinity p = some y ↔ y ≠ x ∧ s.affinity p = some y := by
  simp only [dropAffinity]
  split_ifs with h
  · constructor
    · intro h'; cases h'
    · rintro ⟨hne, hy⟩; rw [h] at hy; cases hy; exact absurd rfl hne
  · exact ⟨fun hy => ⟨fun e => h (e ▸ hy), hy⟩, fun hy => hy.2⟩

end Proj

section Cases

variable [DecidableEq ι]

theorem retrieve_slot (s : Store ι π) (x : ι) (sl : Slot) :
    (s.retrieve x sl).slot = Function.update s.slot x (some { sl with blocks := markRequested sl.blocks }) := by
  simp only [retrieve]; split <;> split_ifs <;> rfl

theorem retrieve_trace (s : Store ι π) (x : ι) (sl : Slot) :
    (s.retrieve x sl).trace = s.trace ++ ((firstMissing sl.blocks).map fun k => Event.request x k).toList := by
  simp only [retrieve]
  cases firstMissing sl.blocks with
  | none => split_ifs <;> simp
  | some k => split_ifs <;> simp

theorem retrieve_peers (s : Store ι π) (x : ι) (sl : Slot) : (s.retrieve x sl).peers = s.peers := by
  simp only [retrieve]; split <;> split_ifs <;> rfl

/-- a request changes the state of its piece only, from the one buffer state to the other -/
theorem retrieve_state (s : Store ι π) (x : ι) (sl : Slot) :
    (s.retrieve x sl).state = if .dontHave ∈ markRequested sl.blocks then s.state
      else Function.update s.state x (some .allRequested) := by
  by_cases h : .dontHave ∈ markRequested sl.blocks
  · have hall : allRequestedOrCompleted (markRequested sl.blocks) = false := by
      rw [Bool.eq_false_iff, ne_eq, allRequestedOrCompleted_iff]; simpa using h
    rw [if_pos h]
    simp only [retrieve, hall]
    split <;> rfl
  · rw [if_neg h]
    simp only [retrieve, allRequestedOrCompleted_iff.2 h]
    split <;> rfl

theorem retrieve_affinity (s : Store ι π) (x : ι) (sl : Slot) :
    .dontHave ∈ markRequested sl.blocks ∧ (s.retrieve x sl).affinity = s.affinity ∨
      .dontHave ∉ markRequested sl.blocks ∧ (s.retrieve x sl).affinity = (s.dropAffinity x).affinity := by
  by_cases h : .dontHave ∈ markRequested sl.blocks
  · have hall : allRequestedOrCompleted (markRequested sl.blocks) = false := by
      rw [Bool.eq_false_iff, ne_eq, allRequestedOrCompleted_iff]; simpa using h
    refine Or.inl ⟨h, ?_⟩
    simp only [retrieve, hall]
    split <;> rfl
  · refine Or.inr ⟨h, ?_⟩
    simp only [retrieve, allRequestedOrCompleted_iff.2 h]
    split <;> rfl

/-- the three ends of a delivery: the piece is complete and right, complete and wrong, or still incomplete -/
theorem deliver_cases (L : Layout ι) (sha1 : Bytes → Bytes) (s : Store ι π) (x : ι) (sl : Slot) (off : ℕ) (src : Bytes) :
    (∀ b ∈ sl.blocks.set (off / L.blockLength) .haveBlock, b = .haveBlock) ∧
        (sha1 (splice sl.data off src) = L.hash x ∧
          s.deliver L sha1 x sl off src =
            ((s.log (.writeBlock x (off / L.blockLength))).log
              (.savePiece x (L.offset x) (splice sl.data off src))).close x .completed ∨
        sha1 (splice sl.data off src) ≠ L.hash x ∧
          s.deliver L sha1 x sl off src =
            ((s.log (.writeBlock x (off / L.blockLength))).log (.hashMismatch x)).close x .notStarted) ∨
      ¬ (∀ b ∈ sl.blocks.set (off / L.blockLength) .haveBlock, b = .haveBlock) ∧
        s.deliver L sha1 x sl off src = (s.log (.writeBlock x (off / L.blockLength))).setSlot x
          (some ⟨sl.blocks.set (off / L.blockLength) .haveBlock, splice sl.data off src⟩) := by
  have hall : (sl.blocks.set (off / L.blockLength) BlockState.haveBlock).all (· == .haveBlock) = true ↔
      ∀ b ∈ sl.blocks.set (off / L.blockLength) .haveBlock, b = .haveBlock := by simp
  simp only [deliver]
  split_ifs with h1 h2
  · exact Or.inl ⟨hall.1 h1, Or.inl ⟨h2, rfl⟩⟩
  · exact Or.inl ⟨hall.1 h1, Or.inr ⟨h2, rfl⟩⟩
  · exact Or.inr ⟨fun h => h1 (hall.2 h), rfl⟩

/-- a delivery opens nothing -/
theorem deliver_slot_ne_none {L : Layout ι} {sha1 : Bytes → Bytes} {s : Store ι π} {x y : ι} {sl : Slot} {off : ℕ}
    {src : Bytes} (hsl : s.slot x = some sl) (hy : (s.deliver L sha1 x sl off src).slot y ≠ none) :
    s.slot y ≠ none := by
  by_cases hyx : y = x
  · subst hyx; simp [hsl]
  · rcases deliver_cases L sha1 s x sl off src with ⟨-, ⟨-, ht⟩ | ⟨-, ht⟩⟩ | ⟨-, ht⟩ <;> rw [ht] at hy <;>
      simpa [close, hyx] using hy

end Cases

/-- a choice opens at most a piece that the peer has -/
theorem Choice.slot_ne_none [DecidableEq ι] [DecidableEq π] {L : Layout ι} {full : Prop} {p : π} {S : Set ι} {s t : Store ι π} {r : Option ι}
    (h : Choice L full p S s r t) {y : ι} (hy : t.slot y ≠ none) : s.slot y ≠ none ∨ y ∈ S := by
  cases h with
  | affinity x ha => exact Or.inl hy
  | opened x data ha hx hS hfull hd =>
    by_cases hyx : y = x
    · exact Or.inr (hyx ▸ hS)
    · exact Or.inl (by simpa [openPiece, hyx] using hy)
  | bound x ha hx hS hstart => exact Or.inl hy
  | reopened x sl ha hx hsl hS hstart =>
    by_cases hyx : y = x
    · exact Or.inr (hyx ▸ hS)
    · exact Or.inl (by simpa [reopen, hyx] using hy)
  | nothing ha hopen hstart => exact Or.inl hy

/-! ## The invariant -/

/-- the state and the slot of one piece fit together -/
structure PieceOk (L : Layout ι) (x : ι) (st : Option PieceState) (sl : Option Slot) : Prop where
  dom : sl.isSome ↔ st = some .buffered ∨ st = some .allRequested
  blocks : ∀ r, sl = some r → r.blocks.length = L.blocks x
  data : ∀ r, sl = some r → r.data.length = L.len x
  requested : ∀ r, st = some .allRequested → sl = some r → .dontHave ∉ r.blocks
  missing : ∀ r, sl = some r → ∃ b ∈ r.blocks, b ≠ .haveBlock

structure Inv (L : Layout ι) (s : Store ι π) : Prop where
  piece : ∀ x, PieceOk L x (s.state x) (s.slot x)
  affinity : ∀ p x, s.affinity p = some x → s.state x = some .buffered ∧ (s.peers p).isSome

variable {L : Layout ι} {sha1 : Bytes → Bytes} {s t : Store ι π}

/-- an open piece is in one of the two buffer states -/
theorem Inv.state_of_slot (h : s.Inv L) {x : ι} {sl : Slot} (hsl : s.slot x = some sl) :
    s.state x = some .buffered ∨ s.state x = some .allRequested := (h.piece x).dom.1 (by simp [hsl])

theorem Inv.slot_of_state (h : s.Inv L) {x : ι} (hx : s.state x = some .buffered ∨ s.state x = some .allRequested) :
    ∃ sl, s.slot x = some sl := Option.isSome_iff_exists.1 ((h.piece x).dom.2 hx)

/-- a piece with no slot -/
theorem pieceOk_none {x : ι} {st : Option PieceState} (h1 : st ≠ some .buffered) (h2 : st ≠ some .allRequested) :
    PieceOk L x st none := ⟨by simp [h1, h2], by simp, by simp, by simp, by simp⟩

/-- a piece with a slot -/
theorem pieceOk_some {x : ι} {st : PieceState} {r : Slot} (hst : st = .buffered ∨ st = .allRequested)
    (hb : r.blocks.length = L.blocks x) (hd : r.data.length = L.len x)
    (hr : st = .allRequested → .dontHave ∉ r.blocks) (hm : ∃ b ∈ r.blocks, b ≠ .haveBlock) :
    PieceOk L x (some st) (some r) := by
  refine ⟨by simpa using hst, ?_, ?_, ?_, ?_⟩ <;> simp only [Option.some.injEq]
  · rintro _ rfl; exact hb
  · rintro _ rfl; exact hd
  · rintro _ h rfl; exact hr h
  · rintro _ rfl; exact hm

section Pieces

variable [DecidableEq ι]

/-- **Frame rule.** A change to one piece keeps the invariant if the piece is left in order and every affinity of the
new store is an old one to another piece, or leads to a buffered piece from a registered peer. -/
theorem Inv.frame (h : s.Inv L) {x : ι} (hst : ∀ y, y ≠ x → t.state y = s.state y)
    (hsl : ∀ y, y ≠ x → t.slot y = s.slot y) (hx : PieceOk L x (t.state x) (t.slot x)) (hpeers : t.peers = s.peers)
    (haff : ∀ p y, t.affinity p = some y →
      y ≠ x ∧ s.affinity p = some y ∨ t.state y = some .buffered ∧ (s.peers p).isSome) : t.Inv L := by
  refine ⟨?_, ?_⟩
  · intro y
    by_cases hy : y = x
    · subst hy; exact hx
    · rw [hst y hy, hsl y hy]; exact h.piece y
  · intro p y hp
    rw [hpeers]
    rcases haff p y hp with ⟨hy, hs⟩ | hs
    · rw [hst y hy]; exact h.affinity p y hs
    · exact hs

/-- a request that leaves no missing block closes the piece to further requests, and frees its peers -/
theorem Inv.retrieve (h : s.Inv L) {x : ι} {sl : Slot} (hx : s.state x = some .buffered) (hsl : s.slot x = some sl) :
    (s.retrieve x sl).Inv L := by
  have hlen : (markRequested sl.blocks).length = L.blocks x := by simpa using (h.piece x).blocks sl hsl
  have hmiss := markRequested_missing ((h.piece x).missing sl hsl)
  have hdata := (h.piece x).data sl hsl
  refine h.frame (x := x) ?_ ?_ ?_ (retrieve_peers _ _ _) ?_
  · intro y hy
    rw [retrieve_state]; split_ifs <;> simp [hy]
  · intro y hy
    simp [retrieve_slot, hy]
  · rw [retrieve_state, retrieve_slot, Function.update_self]
    split_ifs with hd
    · rw [hx]; exact pieceOk_some (Or.inl rfl) hlen hdata (by simp) hmiss
    · rw [Function.update_self]; exact pieceOk_some (Or.inr rfl) hlen hdata (fun _ => hd) hmiss
  · intro q y hq
    rcases retrieve_affinity s x sl with ⟨hd, haff⟩ | ⟨hd, haff⟩
    · rw [haff] at hq
      rw [retrieve_state, if_pos hd]
      exact Or.inr (h.affinity q y hq)
    · rw [haff] at hq
      exact Or.inl ((dropAffinity_eq_some _ _ _).1 hq)

theorem Inv.close (h : s.Inv L) {x : ι} {st : PieceState} (h1 : st ≠ .buffered) (h2 : st ≠ .allRequested) :
    (s.close x st).Inv L := by
  refine h.frame (x := x) (fun y hy => by simp [Store.close, hy]) (fun y hy => by simp [Store.close, hy]) ?_ rfl
    fun q y hq => ?_
  · simp only [Store.close, setSlot_state, dropAffinity_state, setState_state, setSlot_slot, Function.update_self]
    exact pieceOk_none (by simpa using h1) (by simpa using h2)
  · simp only [Store.close, setSlot_affinity] at hq
    exact Or.inl ((dropAffinity_eq_some _ _ _).1 hq)

/-- a delivery keeps the sizes; when it is not the last one, a block that is not HAVE is left -/
theorem Inv.deliver (h : s.Inv L) {x : ι} {sl : Slot} {off : ℕ} {src : Bytes} (hsl : s.slot x = some sl)
    (hlen : off + src.length ≤ L.len x) : (s.deliver L sha1 x sl off src).Inv L := by
  have hlog : ∀ e e', ((s.log e).log e').Inv L := fun e e' => ⟨h.piece, h.affinity⟩
  have hb : (sl.blocks.set (off / L.blockLength) .haveBlock).length = L.blocks x := by
    simpa using (h.piece x).blocks sl hsl
  have hd := (h.piece x).data sl hsl
  rcases deliver_cases L sha1 s x sl off src with ⟨-, ⟨-, ht⟩ | ⟨-, ht⟩⟩ | ⟨hall, ht⟩ <;> rw [ht]
  · exact (hlog _ _).close (by decide) (by decide)
  · exact (hlog _ _).close (by decide) (by decide)
  · have hmiss : ∃ b ∈ sl.blocks.set (off / L.blockLength) .haveBlock, b ≠ .haveBlock := by
      simpa only [not_forall, exists_prop] using hall
    refine h.frame (x := x) (fun y hy => rfl) (fun y hy => by simp [hy]) ?_ rfl ?_
    · simp only [setSlot_state, log_state, setSlot_slot, Function.update_self]
      have hdata : (splice sl.data off src).length = L.len x := by rw [length_splice (by omega), hd]
      rcases h.state_of_slot hsl with hx | hx <;> rw [hx]
      · exact pieceOk_some (Or.inl rfl) hb hdata (by simp) hmiss
      · refine pieceOk_some (Or.inr rfl) hb hdata ?_ hmiss
        intro _ hm
        rcases List.mem_or_eq_of_mem_set hm with hm | hm
        · exact (h.piece x).requested sl hx hsl hm
        · cases hm
    · intro q y hq
      exact Or.inr (h.affinity q y hq)

end Pieces

section Peers

variable [DecidableEq π]

theorem Inv.bind (h : s.Inv L) {p : π} {x : ι} {S : Set ι} (hx : s.state x = some .buffered)
    (hp : s.peers p = some S) : (s.bind p x).Inv L := by
  refine ⟨h.piece, ?_⟩
  intro q y hq
  rcases Checked.update_eq_some hq with ⟨rfl, hxy⟩ | ⟨-, hq⟩
  · cases hxy
    exact ⟨hx, by simp [hp]⟩
  · exact h.affinity q y hq

theorem Inv.removePeer (h : s.Inv L) (p : π) : (s.removePeer p).Inv L := by
  refine ⟨h.piece, ?_⟩
  intro q y hq
  simp only [Store.removePeer] at hq ⊢
  by_cases hqp : q = p
  · subst hqp; simp at hq
  · rw [Function.update_of_ne hqp] at hq ⊢
    exact h.affinity q y hq

theorem Inv.announce (h : s.Inv L) (p : π) (S : Set ι) : (s.announce p S).Inv L := by
  refine ⟨h.piece, ?_⟩
  intro q y hq
  obtain ⟨h1, h2⟩ := h.affinity q y hq
  refine ⟨h1, ?_⟩
  by_cases hqp : q = p
  · subst hqp; simp [Store.announce]
  · simpa [Store.announce, hqp] using h2

end Peers

variable [DecidableEq ι] [DecidableEq π]

/-- when `p` is bound to a piece that is BUFFERED, an affinity is to that piece, or is an old one to another -/
theorem Inv.affinity_update (h : s.Inv L) {p q : π} {x y : ι} {S : Set ι} (hx : t.state x = some .buffered)
    (hp : s.peers p = some S) (hq : Function.update s.affinity p (some x) q = some y) :
    y ≠ x ∧ s.affinity q = some y ∨ t.state y = some .buffered ∧ (s.peers q).isSome := by
  rcases Checked.update_eq_some hq with ⟨rfl, hxy⟩ | ⟨-, hold⟩
  · cases hxy
    exact Or.inr ⟨hx, by simp [hp]⟩
  · by_cases hy : y = x
    · exact Or.inr ⟨hy ▸ hx, (h.affinity q y hold).2⟩
    · exact Or.inl ⟨hy, hold⟩

/-- opening: the fresh slot has a block that is not HAVE -/
theorem Inv.openPiece (h : s.Inv L) {p : π} {x : ι} {S : Set ι} {data : Bytes} (hp : s.peers p = some S)
    (hd : data.length = L.len x) : (s.openPiece L p x data).Inv L := by
  have hb := L.blocks_pos x
  refine h.frame (x := x) ?_ ?_ ?_ rfl ?_
  · intro y hy
    simp [Store.openPiece, hy]
  · intro y hy
    simp [Store.openPiece, hy]
  · simp only [Store.openPiece, bind_state, setState_state, bind_slot, setState_slot, log_slot, setSlot_slot,
      Function.update_self]
    exact pieceOk_some (Or.inl rfl) (by simp) hd (by simp) ⟨.dontHave, by simp; omega, by decide⟩
  · intro q y hq
    simp only [Store.openPiece, bind_affinity, setState_affinity, log_affinity, setSlot_affinity] at hq
    exact h.affinity_update (by simp [Store.openPiece]) hp hq

/-- reopening: the piece had a block that is not HAVE, and it becomes DONT_HAVE -/
theorem Inv.reopen (h : s.Inv L) {p : π} {x : ι} {S : Set ι} {sl : Slot} (hsl : s.slot x = some sl)
    (hp : s.peers p = some S) : (s.reopen p x sl).Inv L := by
  refine h.frame (x := x) ?_ ?_ ?_ rfl ?_
  · intro y hy
    simp [Store.reopen, hy]
  · intro y hy
    simp [Store.reopen, hy]
  · simp only [Store.reopen, setState_state, setState_slot, log_slot, setSlot_slot, Function.update_self]
    exact pieceOk_some (Or.inl rfl) (by simpa using (h.piece x).blocks sl hsl) ((h.piece x).data sl hsl) (by simp)
      ⟨.dontHave, clearRequested_missing ((h.piece x).missing sl hsl), by decide⟩
  · intro q y hq
    simp only [Store.reopen, setState_affinity, log_affinity, setSlot_affinity, bind_affinity] at hq
    exact h.affinity_update (by simp [Store.reopen]) hp hq

/-- every step keeps the invariant -/
theorem step_inv (h : s.Inv L) (hs : s.Step L sha1 t) : t.Inv L := by
  cases hs with
  | openPiece p x S data _ hp _ hd => exact h.openPiece hp hd
  | bind p x S hx hp _ => exact h.bind hx hp
  | reopen p x S sl _ hsl hp _ => exact h.reopen hsl hp
  | retrieve x sl hx hsl => exact h.retrieve hx hsl
  | deliver x sl off src hsl _ hlen _ => exact h.deliver hsl hlen
  | announce p S => exact h.announce p S
  | removePeer p => exact h.removePeer p

end Store

end SimpleTorrent
