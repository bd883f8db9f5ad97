/-
What an accepted block does to the slot of its piece.

The tests of `add_block` look at the ends of the piece only. The block number is `offset / block_length`, and the bytes go
to the raw offset, however many there are.

- `FillsSlot`: a block that is marked HAVE has all its bytes written, and no others change.
- `Filling`: the data start with the block, reach its end, and repeat what is there already if they go on.
- `fillsSlot_iff`: a call fills a slot in this sense if and only if the block is refused or is filling.
- `block_fill`: and in a run whose blocks are all refused or filling, the bytes of each block marked HAVE are those
  delivered for it (`delivered`).
- `partial_block`: one byte is enough to have a block of two marked HAVE.
-/
import SimpleTorrent.Manager.Receive

namespace SimpleTorrent

open Checked Buffer Splice

namespace PieceManager

variable {sha1 : Bytes → Bytes} {s t : PieceManager} {p x k : ℕ} {m : PieceMetadata} {q q' : BufferPiece} {block : Block}

/-! ## One call -/

/-- between `s` and `t` block `k` of piece `x` turns HAVE in the array slot of the piece -/
structure TurnsHave (s t : PieceManager) (x k : ℕ) (q q' : BufferPiece) : Prop where
  slot : ∃ j, s.buffer.pieceBufferMap.lookup x = some j ∧ s.buffer.buffer[j]? = some q ∧ t.buffer.buffer[j]? = some q'
  before : q.blocksState[k]? ≠ some .haveBlock
  after : q'.blocksState[k]? = some .haveBlock

/-- position `i` lies in block `k` of a piece of `len` bytes -/
def InBlock (blockLength len k i : ℕ) : Prop := k * blockLength ≤ i ∧ i < blockEnd blockLength len k

/-- whatever block turns HAVE is one of the block's piece, all of its bytes are written, and no others change -/
def FillsSlot (s t : PieceManager) (block : Block) : Prop :=
  ∀ x k q q', TurnsHave s t x k q q' → x = block.pieceIndex ∧ ∀ m, s.pieces[x]? = some m →
    (∀ i, InBlock s.blockLength m.currentPieceLength k i →
      block.blockOffset ≤ i ∧ i < block.blockOffset + block.data.length) ∧
    ∀ i, ¬ InBlock s.blockLength m.currentPieceLength k i → q'.data[i]? = q.data[i]?

/-- the data begin with a block, reach its end, and do not change what comes after it -/
def Filling (s : PieceManager) (block : Block) : Prop :=
  ∀ m q, s.pieces[block.pieceIndex]? = some m → s.buffer.slotOf block.pieceIndex = some q →
    s.blockLength ∣ block.blockOffset ∧
    blockEnd s.blockLength m.currentPieceLength (block.blockOffset / s.blockLength) ≤
      block.blockOffset + block.data.length ∧
    ∀ i, blockEnd s.blockLength m.currentPieceLength (block.blockOffset / s.blockLength) ≤ i →
      i < block.blockOffset + block.data.length → block.data[i - block.blockOffset]? = q.data[i]?

/-- the bytes of a slot after a write -/
theorem Fitting.write_data (h : s.Linked) (hf : s.Fitting block m q) (i : ℕ) :
    (q.write s.blockLength block).data[i]? =
      if block.blockOffset ≤ i ∧ i < block.blockOffset + block.data.length then block.data[i - block.blockOffset]?
      else q.data[i]? := by
  obtain ⟨m', hm', -, -, hdata⟩ := h.slot _ q hf.slot
  rw [hf.piece, Option.some.injEq] at hm'
  subst hm'
  exact getElem?_splice (by rw [hdata]; exact hf.stop) i

/-- the block that an accepted block is written to is not empty -/
theorem Fitting.inBlock (h : s.Linked) (hf : s.Fitting block m q) :
    InBlock s.blockLength m.currentPieceLength (block.blockOffset / s.blockLength) block.blockOffset := by
  refine ⟨Nat.div_mul_le_self _ _, Nat.lt_min.2 ⟨?_, hf.start⟩⟩
  rw [Nat.mul_comm]
  exact Nat.lt_mul_div_succ _ h.blockLength_pos

/-- outside its block a filling block changes nothing -/
theorem Filling.outside (hfill : s.Filling block) (h : s.Linked) (hf : s.Fitting block m q) {i : ℕ}
    (hi : ¬ InBlock s.blockLength m.currentPieceLength (block.blockOffset / s.blockLength) i) :
    (q.write s.blockLength block).data[i]? = q.data[i]? := by
  obtain ⟨hdvd, -, hspill⟩ := hfill m q hf.piece hf.slot
  have hstart : block.blockOffset / s.blockLength * s.blockLength = block.blockOffset := Nat.div_mul_cancel hdvd
  rw [hf.write_data h]
  split_ifs with hin
  · exact hspill i (Nat.not_lt.1 fun hlt => hi ⟨hstart.le.trans hin.1, hlt⟩) hin.2
  · rfl

/-- inside its block it writes every byte -/
theorem Filling.inside (hfill : s.Filling block) (hf : s.Fitting block m q) {i : ℕ}
    (hi : InBlock s.blockLength m.currentPieceLength (block.blockOffset / s.blockLength) i) :
    block.blockOffset ≤ i ∧ i < block.blockOffset + block.data.length := by
  obtain ⟨hdvd, hreach, -⟩ := hfill m q hf.piece hf.slot
  have hstart : block.blockOffset / s.blockLength * s.blockLength = block.blockOffset := Nat.div_mul_cancel hdvd
  exact ⟨hstart.symm.le.trans hi.1, hi.2.trans_le hreach⟩

/-- an accepted block turns its own block HAVE, and no other one -/
theorem turnsHave_iff (sha1 : Bytes → Bytes) (h : s.Linked) (hf : s.Fitting block m q) : ∃ e,
    TurnsHave s (s.received sha1 block m q) block.pieceIndex (block.blockOffset / s.blockLength) q
      { q.write s.blockLength block with empty := e } ∧
    ∀ x k q₁ q₂, TurnsHave s (s.received sha1 block m q) x k q₁ q₂ → x = block.pieceIndex ∧
      k = block.blockOffset / s.blockLength ∧ q₁ = q ∧ q₂ = { q.write s.blockLength block with empty := e } := by
  obtain ⟨j, e, hj, hbj, hbuffer⟩ := received_buffer sha1 h hf
  have hlt : j < s.buffer.buffer.length := (List.getElem?_eq_some_iff.1 hbj).1
  refine ⟨e, ⟨⟨j, hj, hbj, by rw [hbuffer, List.getElem?_set_self hlt]⟩, hf.missing, ?_⟩, ?_⟩
  · exact List.getElem?_set_self hf.index
  · intro x k q₁ q₂ hturn
    obtain ⟨⟨i, hi, hq₁, hq₂⟩, hbefore, hafter⟩ := hturn
    rw [hbuffer] at hq₂
    by_cases hij : j = i
    · subst hij
      rw [hbj, Option.some.injEq] at hq₁
      rw [List.getElem?_set_self hlt, Option.some.injEq] at hq₂
      subst hq₁ hq₂
      refine ⟨h.wf.inj hi hj, ?_, rfl, rfl⟩
      by_contra hk
      exact hbefore ((List.getElem?_set_ne (Ne.symm hk)).symm.trans hafter)
    · -- the other slots stay as they are
      rw [List.getElem?_set_ne hij, hq₁, Option.some.injEq] at hq₂
      exact absurd (hq₂ ▸ hafter) hbefore

/-- **When a call fills a slot**: if the block is refused, or is filling. -/
theorem fillsSlot_iff (h : s.Linked) (hr : s.addBlock sha1 p block = .ok t) :
    s.FillsSlot t block ↔ s.accepts block = false ∨ s.Filling block := by
  rcases addBlock_cases (p := p) h hr with ⟨hno, rfl⟩ | ⟨m, q, hf, rfl, -⟩
  · refine ⟨fun _ => Or.inl hno, fun _ x k q q' hturn => ?_⟩
    obtain ⟨⟨j, -, hq, hq'⟩, hbefore, hafter⟩ := hturn
    rw [hq, Option.some.injEq] at hq'
    exact absurd (hq' ▸ hafter) hbefore
  · have hyes : s.accepts block = true := (accepts_iff h).2 ⟨m, q, hf⟩
    obtain ⟨e, hturn, honly⟩ := turnsHave_iff sha1 h hf
    have hin := hf.inBlock h
    constructor
    · intro hfills
      obtain ⟨-, hall⟩ := hfills _ _ _ _ hturn
      obtain ⟨hcover, houtside⟩ := hall m hf.piece
      refine Or.inr fun m' q₁ hm' hq₁ => ?_
      obtain rfl : m = m' := Option.some.inj (hf.piece.symm.trans hm')
      obtain rfl : q = q₁ := Option.some.inj (hf.slot.symm.trans hq₁)
      have hends := lt_of_le_of_lt hin.1 hin.2
      refine ⟨?_, ?_, ?_⟩
      · -- the first byte of the block is written
        have hfirst := (hcover _ ⟨le_rfl, hends⟩).1
        exact ⟨_, (Nat.le_antisymm hfirst hin.1).trans (Nat.mul_comm _ _)⟩
      · -- so is the last
        have hlast := hcover (blockEnd s.blockLength m.currentPieceLength (block.blockOffset / s.blockLength) - 1)
          ⟨Nat.le_sub_one_of_lt hends, Nat.sub_one_lt (Nat.ne_of_gt (Nat.zero_lt_of_lt hends))⟩
        omega
      · intro i hi hi'
        have hdata := houtside i fun hc => absurd hc.2 (Nat.not_lt.2 hi)
        rw [← hdata, show ({ q.write s.blockLength block with empty := e } : BufferPiece).data =
          (q.write s.blockLength block).data from rfl, hf.write_data h, if_pos ⟨(hin.2.trans_le hi).le, hi'⟩]
    · rintro (hno | hfill)
      · rw [hyes] at hno
        cases hno
      · intro x k q₁ q₂ hturn'
        obtain ⟨rfl, rfl, rfl, rfl⟩ := honly x k q₁ q₂ hturn'
        refine ⟨rfl, fun m' hm' => ?_⟩
        obtain rfl : m = m' := Option.some.inj (hf.piece.symm.trans hm')
        exact ⟨fun i hi => hfill.inside hf hi, fun i hi => hfill.outside h hf hi⟩

/-! ## Runs -/

/-- what has been delivered for each block: the data of the last block accepted for it -/
def record (s : PieceManager) (d : ℕ → ℕ → Bytes) : Op → ℕ → ℕ → Bytes
  | .addBlock _ block =>
    if s.accepts block then
      Function.update d block.pieceIndex
        (Function.update (d block.pieceIndex) (block.blockOffset / s.blockLength) block.data)
    else d
  | _ => d

def delivered (sha1 : Bytes → Bytes) : PieceManager → List Op → (ℕ → ℕ → Bytes) → ℕ → ℕ → Bytes
  | _, [], d => d
  | s, o :: ops, d =>
    match step sha1 s o with
    | .ok t => delivered sha1 t ops (s.record d o)
    | .error _ => d

/-- a block that is refused, or filling -/
def FillingStep (s : PieceManager) : Op → Prop
  | .addBlock _ block => s.accepts block = false ∨ s.Filling block
  | _ => True

/-- the bytes of each block marked HAVE are those in `d` -/
def Recorded (s : PieceManager) (d : ℕ → ℕ → Bytes) : Prop :=
  ∀ x q k, s.buffer.slotOf x = some q → q.blocksState[k]? = some .haveBlock →
    ∀ i, InBlock s.blockLength q.data.length k i → q.data[i]? = (d x k)[i - k * s.blockLength]?

/-- slots that are fresher at most are still recorded -/
theorem Recorded.fresher {d : ℕ → ℕ → Bytes} (h : s.Recorded d) (hf : Fresher s t)
    (hbl : t.blockLength = s.blockLength) : t.Recorded d := by
  intro x q k hq hk i hi
  rcases hf x q hq with hnew | ⟨q₀, hq₀, hdata, hmarks⟩
  · exact absurd (List.mem_of_getElem? hk) hnew
  · rw [hbl] at hi ⊢
    rw [hdata] at hi ⊢
    exact h x q₀ k hq₀ (hmarks k hk) i hi

/-- two blocks have no position in common -/
theorem InBlock.unique {blockLength len i j : ℕ} (hi : InBlock blockLength len j i)
    (hk : InBlock blockLength len k i) : j = k := by
  have hj := Nat.div_eq_of_lt_le hi.1 (lt_of_lt_of_le hi.2 (Nat.min_le_left _ _))
  have hk := Nat.div_eq_of_lt_le hk.1 (lt_of_lt_of_le hk.2 (Nat.min_le_left _ _))
  exact hj.symm.trans hk

/-- an accepted block that is filling is recorded, and leaves the others recorded -/
theorem Recorded.received {d : ℕ → ℕ → Bytes} (hd : s.Recorded d) (h : s.Linked) (hf : s.Fitting block m q)
    (hfill : s.Filling block) : (s.received sha1 block m q).Recorded (s.record d (.addBlock p block)) := by
  have hyes : s.accepts block = true := (accepts_iff h).2 ⟨m, q, hf⟩
  obtain ⟨hdvd, -, -⟩ := hfill m q hf.piece hf.slot
  have hstart : block.blockOffset / s.blockLength * s.blockLength = block.blockOffset := Nat.div_mul_cancel hdvd
  have hlen : q.data.length = m.currentPieceLength := by
    obtain ⟨m', hm', -, -, hdata⟩ := h.slot _ q hf.slot
    rw [hf.piece, Option.some.injEq] at hm'
    exact hm' ▸ hdata
  have hwrite : (q.write s.blockLength block).data.length = m.currentPieceLength :=
    (length_splice (by rw [hlen]; exact hf.stop)).trans hlen
  intro x r k hr hk i hi
  rw [(received_static sha1 s block m q).1] at hi ⊢
  rw [received_slotOf sha1 h hf] at hr
  simp only [record, hyes, if_true]
  by_cases hx : x = block.pieceIndex
  · subst hx
    rw [Function.update_self] at hr ⊢
    split_ifs at hr with hall
    cases hr
    rw [hwrite] at hi
    by_cases hkb : k = block.blockOffset / s.blockLength
    · subst hkb
      rw [Function.update_self, hf.write_data h, if_pos (hfill.inside hf hi), hstart]
    · -- another block of the piece
      have hout : ¬ InBlock s.blockLength m.currentPieceLength (block.blockOffset / s.blockLength) i := fun hc =>
        hkb (hi.unique hc)
      rw [Function.update_of_ne hkb, hfill.outside h hf hout]
      refine hd _ q k hf.slot ((List.getElem?_set_ne (Ne.symm hkb)).symm.trans hk) i ?_
      rw [hlen]
      exact hi
  · rw [Function.update_of_ne hx] at hr ⊢
    exact hd x r k hr hk i hi

/-- **A step** whose block is refused or filling keeps the record. -/
theorem step_recorded {d : ℕ → ℕ → Bytes} (hd : s.Recorded d) (h : s.Linked) {o : Op} (ho : s.FillingStep o)
    (hs : step sha1 s o = .ok t) : t.Recorded (s.record d o) := by
  cases o with
  | updatePieceFrequencies bitfield p =>
    cases hs
    exact hd
  | selectNextBlock p order =>
    obtain ⟨r, hu⟩ := step_select hs
    have hf := h.select hu
    exact hd.fresher hf.fresher hf.blockLength
  | addBlock p block =>
    rcases addBlock_cases (p := p) h hs with ⟨hno, rfl⟩ | ⟨m, q, hf, rfl, -⟩
    · simp only [record, hno]
      exact hd
    · have hyes : s.accepts block = true := (accepts_iff h).2 ⟨m, q, hf⟩
      refine hd.received h hf (ho.resolve_left fun hno => ?_)
      rw [hyes] at hno
      cases hno
  | removePeer p =>
    cases hs
    exact hd

/-- **A run** of such steps keeps it. -/
theorem run_recorded {n : ℕ} {d : ℕ → ℕ → Bytes} {ops : List Op} (hd : s.Recorded d) (h : s.Linked)
    (hn : s.pieces.length = n) (hops : ∀ o ∈ ops, o.Indexed n) (hfill : Guarded (step sha1) FillingStep s ops)
    (hs : runM (step sha1) s ops = .ok t) : t.Recorded (delivered sha1 s ops d) := by
  induction ops generalizing s d with
  | nil =>
    cases hs
    exact hd
  | cons o ops ih =>
    rw [runM_cons, bind_eq_ok] at hs
    obtain ⟨u, hu, hs⟩ := hs
    obtain ⟨hlinked, hlen, -⟩ := step_linked h hn (hops o List.mem_cons_self) hu
    rw [delivered, hu]
    exact ih (step_recorded hd h hfill.1 hu) hlinked hlen (fun o' ho' => hops o' (List.mem_cons_of_mem o ho'))
      (hfill.2 u hu) hs

/-- **Blocks and slots.** In every state reached, a call of `add_block` fills a slot, all of it and nothing else, if and
only if the block is refused or filling. In a run of which all blocks are, the bytes of each block marked HAVE are those
delivered for it. -/
theorem block_fill (sha1 : Bytes → Bytes) (data : TorrentMetadata) (blockLength bufferSize : UInt32) (ops : List Op)
    (hops : ∀ o ∈ ops, o.Indexed data.pieceHashes.length) (s₀ s : PieceManager)
    (hnew : new data blockLength bufferSize = .ok s₀) (hs : runM (step sha1) s₀ ops = .ok s) :
    (∀ p block t, s.addBlock sha1 p block = .ok t →
      (s.FillsSlot t block ↔ s.accepts block = false ∨ s.Filling block)) ∧
    (Guarded (step sha1) FillingStep s₀ ops → ∀ x m q k, s.pieces[x]? = some m → s.buffer.slotOf x = some q →
      q.blocksState[k]? = some .haveBlock → ∀ i, InBlock s.blockLength m.currentPieceLength k i →
        q.data[i]? = (delivered sha1 s₀ ops (fun _ _ => []) x k)[i - k * s.blockLength]?) := by
  obtain ⟨h0, hsize, -⟩ := new_linked hnew
  have hlinked : s.Linked := run_linked hops (by rw [run, hnew, ok_bind]; exact hs)
  refine ⟨fun p block t hr => fillsSlot_iff hlinked hr, ?_⟩
  intro hfill x m q k hm hq hk i hi
  have hempty : s₀.Recorded fun _ _ => [] := by
    intro y r j hr
    rw [new] at hnew
    split_ifs at hnew
    cases hnew
    simp [slotOf, Buffer.new] at hr
  obtain ⟨m', hm', -, -, hdata⟩ := hlinked.slot x q hq
  obtain rfl : m = m' := Option.some.inj (hm.symm.trans hm')
  exact run_recorded hempty h0 hsize hops hfill hs x q k hq hk i (by rw [hdata]; exact hi)

/-- one piece of two blocks of two bytes -/
def fourBytes : TorrentMetadata := .ofHashes [[]] 4 4

/-- a block of the right length at the right place -/
theorem block_fill_fourBytes : ∃ s₀ s q, new fourBytes 2 1 = .ok s₀ ∧
    runM (step id) s₀ [.updatePieceFrequencies [1] 0, .selectNextBlock 0 [], .addBlock 0 ⟨0, 0, [1, 2]⟩] = .ok s ∧
    s.buffer.slotOf 0 = some q ∧ ∀ i, InBlock 2 4 0 i → q.data[i]? = (delivered id s₀
      [.updatePieceFrequencies [1] 0, .selectNextBlock 0 [], .addBlock 0 ⟨0, 0, [1, 2]⟩] (fun _ _ => []) 0 0)[i]? := by
  refine ⟨_, _, _, rfl, rfl, rfl, (block_fill id fourBytes 2 1
    [.updatePieceFrequencies [1] 0, .selectNextBlock 0 [], .addBlock 0 ⟨0, 0, [1, 2]⟩] ?_ _ _ rfl rfl).2 ?_ 0 _ _ 0
    rfl rfl rfl⟩
  · simp [Op.Indexed, fourBytes, TorrentMetadata.ofHashes]
  · refine ⟨trivial, fun s₁ h₁ => ⟨trivial, fun s₂ h₂ => ⟨Or.inr ?_, fun _ _ => trivial⟩⟩⟩
    cases h₁
    cases h₂
    intro m q hm hq
    cases hm
    cases hq
    exact ⟨⟨0, rfl⟩, by decide, fun i hi hi' => absurd (lt_of_le_of_lt hi hi') (by decide)⟩

/-- one byte is enough to have a block of two marked HAVE -/
theorem partial_block : ∃ s t, run id fourBytes 2 1 [.updatePieceFrequencies [1] 0, .selectNextBlock 0 []] = .ok s ∧
    s.addBlock id 0 ⟨0, 0, [7]⟩ = .ok t ∧ ¬ s.FillsSlot t ⟨0, 0, [7]⟩ := by
  refine ⟨_, _, rfl, rfl, ?_⟩
  intro hfills
  obtain ⟨-, hall⟩ := hfills 0 0 _ _ ⟨⟨0, rfl, rfl, rfl⟩, by decide, rfl⟩
  have hcover := (hall _ rfl).1 1 ⟨by decide, by decide⟩
  exact absurd hcover.2 (by decide)

end PieceManager

end SimpleTorrent
