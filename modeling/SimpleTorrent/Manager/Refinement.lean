/-
The manager refines the piece store: `step_moves` for one call, `run_inv` and `run_append_moves` for whole runs.

`run_total` says when a run cannot fault: every bitfield has one entry per piece, and the buffer cannot hold 2^31 pieces
because it is smaller than that, or the torrent is. `Inv.complete_iff` says when a manager counts itself as complete.
-/
import SimpleTorrent.Manager.Select
import SimpleTorrent.Manager.Deliver

namespace SimpleTorrent

open Checked Buffer

namespace PieceManager

variable {c : Config} {sha1 : Bytes → Bytes} {s t : PieceManager} {x p : ℕ}

/-! ## Peers -/

/-- what all bitfields satisfy, those of the peers that stay do -/
theorem removePeer_bitfields {P : List PeerPieceState → Prop} (h : ∀ q bf, s.peersBitfieldMap.lookup q = some bf → P bf)
    (p q : ℕ) (bf : List PeerPieceState) (hbf : (s.removePeer p).peersBitfieldMap.lookup q = some bf) : P bf :=
  h q bf (lookup_erase_eq_some.1 hbf).2

theorem removePeer_moves (h : s.Shape c) (p : ℕ) : Moves c sha1 s (s.removePeer p) := by
  have hstore : (s.removePeer p).toStore = s.toStore.removePeer p := by
    refine Store.ext' rfl rfl ?_ ?_ rfl
    · funext q
      simp [toStore, removePeer, Store.removePeer, lookup_erase_eq, Function.update_apply]
    · funext q
      simp only [toStore, removePeer, Store.removePeer, lookup_erase_eq, Function.update_apply]
      split_ifs <;> rfl
  exact .single { h with narrow := h.narrow.imp_right fun hn => removePeer_bitfields hn p } (hstore ▸ .removePeer p)

/-- the states that `update_piece_frequencies` derives from a bitfield -/
def convert (bitfield : List UInt8) : List PeerPieceState := bitfield.map fun v => if v = 1 then .havePiece else .dontHave

@[simp] theorem length_convert (bitfield : List UInt8) : (convert bitfield).length = bitfield.length := by
  simp [convert]

theorem lookup_updatePieceFrequencies (bitfield : List UInt8) (p q : ℕ) :
    (s.updatePieceFrequencies bitfield p).peersBitfieldMap.lookup q =
      if q = p then some (convert bitfield) else s.peersBitfieldMap.lookup q := by
  by_cases hq : q = p
  · subst hq; simp [updatePieceFrequencies, convert, AList.lookup_insert]
  · simp [updatePieceFrequencies, AList.lookup_insert_ne hq, hq]

/-- and if the announced one does too, all bitfields still do -/
theorem updatePieceFrequencies_bitfields {P : List PeerPieceState → Prop} {bitfield : List UInt8}
    (hb : P (convert bitfield)) (h : ∀ q bf, s.peersBitfieldMap.lookup q = some bf → P bf) (p q : ℕ)
    (bf : List PeerPieceState) (hbf : (s.updatePieceFrequencies bitfield p).peersBitfieldMap.lookup q = some bf) :
    P bf := by
  rw [lookup_updatePieceFrequencies] at hbf
  split_ifs at hbf with hq
  · cases hbf
    exact hb
  · exact h q bf hbf

theorem updatePieceFrequencies_moves (h : s.Shape c) {bitfield : List UInt8}
    (hb : c.numPieces < 2 ^ 32 ∨ bitfield.length ≤ 2 ^ 32) (p : ℕ) :
    Moves c sha1 s (s.updatePieceFrequencies bitfield p) := by
  have hstore : (s.updatePieceFrequencies bitfield p).toStore = s.toStore.announce p (haveSet (convert bitfield)) := by
    refine Store.ext' rfl rfl rfl ?_ rfl
    funext q
    simp only [toStore, lookup_updatePieceFrequencies, Store.announce]
    by_cases hq : q = p
    · subst hq; simp
    · simp [hq]
  refine .single { h with narrow := ?_ } (hstore ▸ .announce p _)
  rcases hb with hn | hb
  · exact Or.inl hn
  · rw [← length_convert] at hb
    exact h.narrow.imp_right fun hn => updatePieceFrequencies_bitfields (P := fun bf => bf.length ≤ 2 ^ 32) hb hn p

/-! ## Runs -/

/-- piece indices are 32 bits wide: so is the number of pieces, or the bitfields are short enough -/
def Op.Narrow (c : Config) : Op → Prop
  | .updatePieceFrequencies bitfield _ => c.numPieces < 2 ^ 32 ∨ bitfield.length ≤ 2 ^ 32
  | _ => True

theorem Op.narrow_of_lt (hn : c.numPieces < 2 ^ 32) (o : Op) : o.Narrow c := by
  cases o with
  | updatePieceFrequencies bitfield p => exact Or.inl hn
  | _ => trivial

/-- a step that selects a block drops the request -/
theorem step_select {order : List ℕ} (h : step sha1 s (.selectNextBlock p order) = .ok t) :
    ∃ r, s.selectNextBlock p order = .ok (r, t) := by
  rw [step, bind_eq_ok] at h
  obtain ⟨⟨r, u⟩, hu, h⟩ := h
  cases h
  exact ⟨r, hu⟩

/-- **One call** is a sequence of store steps. -/
theorem step_moves (h : s.Inv c sha1) {o : Op} (ho : o.Narrow c) (hs : step sha1 s o = .ok t) : Moves c sha1 s t := by
  cases o with
  | updatePieceFrequencies bitfield p => cases hs; exact updatePieceFrequencies_moves h.shape ho p
  | selectNextBlock p order =>
    obtain ⟨r, hu⟩ := step_select hs
    exact selectNextBlock_moves h hu
  | addBlock p block => exact addBlock_moves (p := p) h hs
  | removePeer p => cases hs; exact removePeer_moves h.shape p

/-- the store of a torrent nobody has started -/
def emptyStore (c : Config) : Store ℕ ℕ where
  state x := if x < c.numPieces then some .notStarted else none
  slot _ := none
  affinity _ := none
  peers _ := none
  trace := []

theorem new_spec (c : Config) : ∃ s, new c.data c.blockLength c.bufferSize = .ok s ∧ s.Shape c ∧
    s.toStore = emptyStore c ∧ s.peersBitfieldMap = ∅ := by
  have hb := c.blockLength_pos
  have hp := c.pieceLength_pos
  have hmod : c.data.pieceLength % 2 ^ 32 = c.data.pieceLength := Nat.mod_eq_of_lt c.pieceLength_lt
  rw [new, if_neg (by omega)]
  refine ⟨_, rfl, ⟨by simp [Config.numPieces], ?_, hmod, rfl, wf_new _ _ c.bufferSize.toNat_lt, ?_, rfl,
    ?_, Or.inr (by simp)⟩, ?_, rfl⟩
  · intro x m hm
    simp only [List.getElem?_mapIdx, Option.map_eq_some_iff] at hm
    obtain ⟨hash, hhash, rfl⟩ := hm
    exact ⟨by simp [Config.layout, hhash], rfl, rfl⟩
  · simp [Buffer.new]
  · symm
    rw [List.countP_eq_zero.2, Nat.zero_mod]
    intro m hm
    obtain ⟨i, hi, rfl⟩ := List.mem_mapIdx.1 hm
    simp
  · refine Store.ext' ?_ (by funext x; simp [toStore, slotOf, Buffer.new, emptyStore]) rfl rfl rfl
    funext x
    simp only [toStore, emptyStore, List.getElem?_mapIdx, Option.map_map]
    by_cases hx : x < c.numPieces
    · rw [if_pos hx, List.getElem?_eq_getElem hx]; rfl
    · rw [if_neg hx, List.getElem?_eq_none (Nat.not_lt.1 hx)]; rfl

theorem emptyStore_good (c : Config) (sha1 : Bytes → Bytes) : (emptyStore c).Good c.layout sha1 := by
  refine ⟨⟨?_, by simp [emptyStore]⟩, by simp [emptyStore, Store.Marks], ?_, ?_⟩
  · intro x
    refine Store.pieceOk_none ?_ ?_ <;> simp only [emptyStore] <;> split_ifs <;> simp
  · intro x a b hab
    simp [emptyStore, Store.attempt] at hab
  · refine ⟨?_, by simp [emptyStore, Store.savedPieces], by simp [emptyStore]⟩
    intro x
    simp only [emptyStore, Store.savedPieces]
    split_ifs <;> simp

/-- **Every run keeps the invariant.** -/
theorem run_inv {ops : List Op} (hops : ∀ o ∈ ops, o.Narrow c) (h : c.run sha1 ops = .ok s) : s.Inv c sha1 := by
  obtain ⟨s₀, hnew, hshape, hstore, -⟩ := new_spec c
  rw [Config.run, run, hnew, ok_bind] at h
  have h0 : s₀.Inv c sha1 := ⟨hshape, hstore ▸ emptyStore_good c sha1⟩
  exact runM_inv (fun _ _ _ hi ho hs => (step_moves hi ho hs).inv hi) h0 hops h

/-- runs compose, and the second part is made of store steps -/
theorem run_append_moves {ops ops' : List Op} (hops : ∀ o ∈ ops ++ ops', o.Narrow c) (h : c.run sha1 ops = .ok s)
    (h' : c.run sha1 (ops ++ ops') = .ok t) : Moves c sha1 s t := by
  have hs := run_inv (fun o ho => hops o (List.mem_append_left _ ho)) h
  obtain ⟨s₀, hnew, -⟩ := new_spec c
  rw [Config.run, run, hnew, ok_bind] at h h'
  rw [runM_append, h, ok_bind] at h'
  refine runM_inv (I := fun u => Moves c sha1 s u) (P := Op.Narrow c) ?_ (.refl hs.shape)
    (fun o ho => hops o (List.mem_append_right _ ho)) h'
  exact fun u o v hu ho hv => hu.trans (step_moves (hu.inv hs) ho hv)

/-! ## Completion -/

/-- the count is compared with the number of pieces as it is, and it is a 32-bit number -/
theorem Inv.complete_iff (h : s.Inv c sha1) :
    s.isDownloadComplete = true ↔ c.numPieces < 2 ^ 32 ∧ ∀ x < c.numPieces, s.toStore.state x = some .completed := by
  have hle : s.pieces.countP (fun m => m.state == .completed) ≤ s.pieces.length := List.countP_le_length
  have hmod := Nat.mod_le (s.pieces.countP fun m => m.state == .completed) (2 ^ 32)
  have hlt := Nat.mod_lt (s.pieces.countP fun m => m.state == .completed) (show 0 < 2 ^ 32 by decide)
  have hall : s.pieces.countP (fun m => m.state == .completed) = s.pieces.length ↔
      ∀ x < c.numPieces, s.toStore.state x = some .completed := by
    rw [List.countP_eq_length, ← h.shape.size]
    constructor
    · intro hall x hx
      rw [toStore_state (List.getElem?_eq_getElem hx)]
      simpa using hall _ (List.getElem_mem hx)
    · intro hall m hm
      obtain ⟨x, hx, rfl⟩ := List.getElem_of_mem hm
      have hst := hall x hx
      rw [toStore_state (List.getElem?_eq_getElem hx), Option.some.injEq] at hst
      simp [hst]
  rw [isDownloadComplete, beq_iff_eq, h.shape.count, ← hall, ← h.shape.size]
  constructor
  · intro heq
    exact ⟨by omega, by omega⟩
  · intro heq
    rw [heq.2]
    exact Nat.mod_eq_of_lt heq.1

/-- what is complete stays complete -/
theorem Moves.complete (h : Moves c sha1 s t) (hs : s.Inv c sha1) (hc : s.isDownloadComplete = true) :
    t.isDownloadComplete = true := by
  obtain ⟨hn, hall⟩ := hs.complete_iff.1 hc
  exact (h.inv hs).complete_iff.2 ⟨hn, fun x hx => h.completed hs (hall x hx)⟩

/-! ## Runs without faults -/

/-- the number of entries of a bitfield: the number of pieces, passed as a `uint32_t` -/
def bitfieldLength (c : Config) : ℕ := c.numPieces % 2 ^ 32

def Op.Fits (c : Config) : Op → Prop
  | .updatePieceFrequencies bitfield _ => bitfield.length = bitfieldLength c
  | _ => True

instance (o : Op) : Decidable (o.Fits c) :=
  match o with
  | .updatePieceFrequencies bitfield _ => inferInstanceAs (Decidable (bitfield.length = bitfieldLength c))
  | .selectNextBlock _ _ => isTrue trivial
  | .addBlock _ _ => isTrue trivial
  | .removePeer _ => isTrue trivial

theorem Op.Fits.narrow {o : Op} (h : o.Fits c) : o.Narrow c := by
  cases o with
  | updatePieceFrequencies bitfield p =>
    refine Or.inr (le_of_eq_of_le h ?_)
    exact (Nat.mod_lt _ (by decide)).le
  | _ => trivial

structure Fits (c : Config) (s : PieceManager) : Prop where
  bitfields : ∀ p bf, s.peersBitfieldMap.lookup p = some bf → bf.length = bitfieldLength c
  opened : ∀ x, s.toStore.slot x ≠ none → x < bitfieldLength c

theorem Fits.mem_haveSet {bf : List PeerPieceState} (h : s.Fits c) (hbf : s.peersBitfieldMap.lookup p = some bf)
    (hx : x ∈ haveSet bf) : x < bitfieldLength c := h.bitfields p bf hbf ▸ (List.getElem?_eq_some_iff.1 hx).1

theorem Fits.select (h : s.Fits c) (hinv : s.Inv c sha1) {order : List ℕ} {r : Option BlockRequest}
    (hr : s.selectNextBlock p order = .ok (r, t)) : t.Fits c := by
  refine ⟨by rw [selectNextBlock_bitfields hinv hr]; exact h.bitfields, ?_⟩
  intro y hy
  rcases selectNextBlock_cases hinv hr with
    ⟨-, -, rfl⟩ | ⟨bf, chosen, u, hbf, hchoice, -, -, ⟨-, -, rfl⟩ | ⟨x, sl, -, -, hsl, -, hstore⟩⟩
  · exact h.opened y hy
  · rcases hchoice.slot_ne_none hy with hy | hy
    · exact h.opened y hy
    · exact h.mem_haveSet hbf hy
  · have huy : u.toStore.slot y ≠ none := by
      rw [hstore, Store.retrieve_slot] at hy
      by_cases hyx : y = x
      · subst hyx; simp [hsl]
      · simpa [hyx] using hy
    rcases hchoice.slot_ne_none huy with hy | hy
    · exact h.opened y hy
    · exact h.mem_haveSet hbf hy

theorem step_fits (h : s.Fits c) (hinv : s.Inv c sha1) {o : Op} (ho : o.Fits c) (hs : step sha1 s o = .ok t) :
    t.Fits c := by
  cases o with
  | updatePieceFrequencies bitfield p =>
    cases hs
    have hlen : (convert bitfield).length = bitfieldLength c := (length_convert bitfield).trans ho
    exact ⟨updatePieceFrequencies_bitfields (P := fun bf => bf.length = bitfieldLength c) hlen h.bitfields p, h.opened⟩
  | selectNextBlock p order =>
    obtain ⟨r, hu⟩ := step_select hs
    exact h.select hinv hu
  | addBlock p block =>
    obtain ⟨t', ht', hkeeps, hcase⟩ := addBlock_spec hinv p block
    obtain rfl : t' = t := Except.ok.inj (ht'.symm.trans hs)
    refine ⟨by rw [hkeeps.bitfields]; exact h.bitfields, ?_⟩
    intro y hy
    rcases hcase with ⟨rfl, -⟩ | ⟨sl, hsl, -, -, -, hstore⟩
    · exact h.opened y hy
    · rw [hstore] at hy
      exact h.opened y (Store.deliver_slot_ne_none hsl hy)
  | removePeer p =>
    cases hs
    exact ⟨removePeer_bitfields h.bitfields p, h.opened⟩

/-- the buffer holds no more pieces than it has slots, and than the torrent has pieces -/
theorem Inv.keys_length_le (h : s.Inv c sha1) :
    s.buffer.pieceBufferMap.keys.length ≤ min c.bufferSize.toNat c.numPieces := by
  refine le_min (h.shape.slots ▸ h.shape.wf.size_le) ?_
  have hsub : s.buffer.pieceBufferMap.keys ⊆ List.range c.numPieces := by
    intro x hx
    obtain ⟨q, hq⟩ := Option.isSome_iff_exists.1 ((mem_keys_iff h.shape.wf).1 hx)
    obtain ⟨m, hm, -⟩ := h.slotOf_eq_some hq
    exact List.mem_range.2 (h.shape.size ▸ (List.getElem?_eq_some_iff.1 hm).1)
  simpa using s.buffer.pieceBufferMap.keys_nodup.length_le_of_subset hsub

theorem selectNextBlock_total (h : s.Inv c sha1) (hf : s.Fits c)
    (hsmall : s.buffer.pieceBufferMap.keys.length < 2 ^ 31) (p : ℕ) (order : List ℕ) :
    ∃ r t, s.selectNextBlock p order = .ok (r, t) := by
  cases hbf : s.peersBitfieldMap.lookup p with
  | none => exact ⟨none, s, selectNextBlock_unregistered hbf order⟩
  | some bf =>
    have hlen := hf.bitfields p bf hbf
    have hopen : ∀ x, (s.buffer.slotOf x).isSome → x < bf.length := by
      intro x hx
      obtain ⟨q, hq⟩ := Option.isSome_iff_exists.1 hx
      rw [hlen]
      exact hf.opened x (by simp [toStore_slot hq])
    have hfit : bf.length ≤ s.pieces.length := by
      rw [hlen, h.shape.size]
      exact Nat.mod_le _ _
    obtain ⟨⟨chosen, u⟩, hu⟩ := choosePiece_total h hbf hfit hopen hsmall order
    obtain ⟨hkeeps, hchoice⟩ := choosePiece_cases h hbf hu
    obtain ⟨hmoves, hstate⟩ := choice_steps h hbf hchoice hkeeps.shape
    rw [selectNextBlock_eq hbf, hu, ok_bind]
    cases chosen with
    | none => exact ⟨none, u, rfl⟩
    | some x =>
      have hx := hstate x rfl
      obtain ⟨sl, hsl⟩ := (hmoves.inv h).good.inv.slot_of_state (Or.inl hx)
      obtain ⟨q, hq, rfl⟩ := slot_toStore hsl
      obtain ⟨t, ht, -⟩ := requestFrom_spec (hmoves.inv h) hx hq
      exact ⟨_, t, ht⟩

/-- **No call faults** while bitfields fit and slot numbers fit into an `int`. -/
theorem step_total (h : s.Inv c sha1) (hf : s.Fits c) (hsmall : min c.bufferSize.toNat c.numPieces < 2 ^ 31) (o : Op) :
    ∃ t, step sha1 s o = .ok t := by
  cases o with
  | updatePieceFrequencies bitfield p => exact ⟨_, rfl⟩
  | selectNextBlock p order =>
    obtain ⟨r, t, ht⟩ := selectNextBlock_total h hf (lt_of_le_of_lt h.keys_length_le hsmall) p order
    exact ⟨t, by rw [step, ht]; rfl⟩
  | addBlock p block =>
    obtain ⟨t, ht, -⟩ := addBlock_spec h p block
    exact ⟨t, ht⟩
  | removePeer p => exact ⟨_, rfl⟩

theorem new_fits (c : Config) (sha1 : Bytes → Bytes) :
    ∃ s, new c.data c.blockLength c.bufferSize = .ok s ∧ s.Inv c sha1 ∧ s.Fits c := by
  obtain ⟨s₀, hnew, hshape, hstore, hpeers⟩ := new_spec c
  exact ⟨s₀, hnew, ⟨hshape, hstore ▸ emptyStore_good c sha1⟩, by simp [hpeers], by simp [hstore, emptyStore]⟩

theorem run_fits {ops : List Op} (hops : ∀ o ∈ ops, o.Fits c) (h : c.run sha1 ops = .ok s) :
    s.Inv c sha1 ∧ s.Fits c := by
  obtain ⟨s₀, hnew, h0⟩ := new_fits c sha1
  rw [Config.run, run, hnew, ok_bind] at h
  refine runM_inv (I := fun s => s.Inv c sha1 ∧ s.Fits c) (P := Op.Fits c) ?_ h0 hops h
  exact fun u o v hi ho hv => ⟨(step_moves hi.1 ho.narrow hv).inv hi.1, step_fits hi.2 hi.1 ho hv⟩

/-- **Legal runs do not fault** while slot numbers fit into an `int`. -/
theorem run_total {ops : List Op} (hops : ∀ o ∈ ops, o.Fits c)
    (hsmall : min c.bufferSize.toNat c.numPieces < 2 ^ 31) : ∃ s, c.run sha1 ops = .ok s := by
  obtain ⟨s₀, hnew, h0⟩ := new_fits c sha1
  rw [Config.run, run, hnew, ok_bind]
  have hstep : ∀ u o, (u.Inv c sha1 ∧ u.Fits c) → o.Fits c → ∃ v, step sha1 u o = .ok v ∧ (v.Inv c sha1 ∧ v.Fits c) := by
    intro u o hi ho
    obtain ⟨v, hv⟩ := step_total hi.1 hi.2 hsmall o
    exact ⟨v, hv, (step_moves hi.1 ho.narrow hv).inv hi.1, step_fits hi.2 hi.1 ho hv⟩
  obtain ⟨s, hs, -⟩ := runM_total hstep h0 hops
  exact ⟨s, hs⟩

end PieceManager

end SimpleTorrent
