/-
When `select_next_block` can still hand out a block.

A call comes back empty-handed for two reasons only. Either the piece it chose has no missing block left (it is stale:
its last missing blocks arrived unasked); the call then closes the piece to further requests, so that this can happen
at most as often as there are pieces in the buffer. Or there is no piece to choose.

- `served_of_eligible`: a peer with something to choose from is served within one call more than there are stale pieces.
- `served_when_offered`: so is, within one call more than the buffer has slots, every peer that has a piece of the
  buffer, or one that it could open. `offered_stuck`: not so with 2^31 pieces in the buffer.
- `Wedged`: nobody has anything to choose from. `Wedged.selects`: then nobody is served, however often it asks, as long
  as nothing else is called.
- `progress_iff`: unless the manager is wedged, some registered peer is served in time.
- `wedge_possible`: the manager can be wedged while a registered peer has a piece that nobody has started: the buffer is
  full of pieces that only a removed peer had. And a buffer of 2^31 pieces faults when another one is to be added.
-/
import SimpleTorrent.Properties.NoCrash
import Mathlib.Order.CompletePartialOrder

namespace SimpleTorrent

open Checked Buffer Store

/-! ## Empty-handed choices -/

namespace Store

variable {ι π : Type} [DecidableEq ι] {L : Layout ι} {s t : Store ι π} {p : π} {S : Set ι} {full : Prop}
  {x : ι} {sl : Slot}

/-- the pieces that can be chosen but have no missing block -/
def Stale (s : Store ι π) : Set ι :=
  {x | s.state x = some .buffered ∧ ∃ sl, s.slot x = some sl ∧ .dontHave ∉ sl.blocks}

/-- a chosen piece without a missing block was already in the buffer, as it is -/
theorem Choice.of_stale [DecidableEq π] (hinv : s.Inv L) (hc : Choice L full p S s (some x) t) (hsl : t.slot x = some sl)
    (hmiss : firstMissing sl.blocks = none) :
    t.state = s.state ∧ t.slot = s.slot ∧ s.state x = some .buffered ∧
      (∀ y, s.affinity p = some y → y = x) ∧
      ∀ q y, y ≠ x → t.affinity q = some y → s.affinity q = some y := by
  rw [firstMissing_eq_none] at hmiss
  cases hc with
  | affinity x ha =>
    refine ⟨rfl, rfl, (hinv.affinity p x ha).1, ?_, fun q y _ hq => hq⟩
    intro y hy
    rw [ha, Option.some.injEq] at hy
    exact hy.symm
  | bound x ha hx hS hstart =>
    refine ⟨rfl, rfl, hx, by simp [ha], ?_⟩
    intro q y hyx hq
    rcases update_eq_some hq with ⟨-, hq⟩ | ⟨-, hq⟩
    · exact absurd (Option.some.inj hq).symm hyx
    · exact hq
  | opened x data ha hx hS hfull hd =>
    -- a fresh slot has a missing block
    have hb := L.blocks_pos x
    simp only [openPiece, bind_slot, setState_slot, log_slot, setSlot_slot, Function.update_self, Option.some.injEq] at hsl
    subst hsl
    exact absurd (List.mem_replicate.2 ⟨by omega, rfl⟩) hmiss
  | reopened x sl₀ ha hx hsl₀ hS hstart =>
    -- so has a reopened one
    simp only [reopen, setState_slot, log_slot, setSlot_slot, Function.update_self, Option.some.injEq] at hsl
    subst hsl
    exact absurd (clearRequested_missing ((hinv.piece x).missing sl₀ hsl₀)) hmiss

/-- what a request for a stale piece does: it closes the piece -/
theorem retrieve_stale (hsl : s.slot x = some sl) (hmiss : firstMissing sl.blocks = none) :
    (s.retrieve x sl).slot = s.slot ∧ (s.retrieve x sl).state = Function.update s.state x (some .allRequested) ∧
      (s.retrieve x sl).affinity = (s.dropAffinity x).affinity := by
  have hmark : markRequested sl.blocks = sl.blocks := by simp [markRequested, hmiss]
  have hnot := firstMissing_eq_none.1 hmiss
  refine ⟨?_, ?_, ?_⟩
  · rw [retrieve_slot, hmark]
    exact Function.update_eq_self_iff.2 hsl.symm
  · rw [retrieve_state, hmark, if_neg hnot]
  · rcases retrieve_affinity s x sl with ⟨h, -⟩ | ⟨-, h⟩
    · rw [hmark] at h
      exact absurd h hnot
    · exact h

/-- a closed piece is not stale any more, and the others stay as they are -/
theorem stale_retrieve (hx : s.state x = some .buffered) (hsl : s.slot x = some sl)
    (hmiss : firstMissing sl.blocks = none) : (s.retrieve x sl).Stale ⊂ s.Stale := by
  obtain ⟨hslot, hstate, -⟩ := retrieve_stale hsl hmiss
  constructor
  · intro y hyst
    obtain ⟨hy, hysl⟩ := hyst
    rw [hstate] at hy
    rw [hslot] at hysl
    by_cases hyx : y = x
    · subst hyx
      simp at hy
    · exact ⟨by simpa [hyx] using hy, hysl⟩
  · intro hsub
    obtain ⟨hst, -⟩ := hsub ⟨hx, sl, hsl, firstMissing_eq_none.1 hmiss⟩
    rw [hstate] at hst
    simp at hst

end Store

namespace PieceManager

variable {c : Config} {sha1 : Bytes → Bytes} {s t : PieceManager} {p x : ℕ}

/-! ## Consecutive calls -/

/-- consecutive calls of `select_next_block` for one peer, up to the first that returns a request; each comes with the
order in which the buffer lists its pieces -/
def selects (s : PieceManager) (p : ℕ) : List (List ℕ) → Except Fault (Option BlockRequest)
  | [] => .ok none
  | order :: orders => do
    let (r, s) ← s.selectNextBlock p order
    match r with
    | some request => return some request
    | none => s.selects p orders

/-- registered, and given a request within `buffer_size + 1` calls, whatever the orders -/
def Served (c : Config) (s : PieceManager) (p : ℕ) : Prop :=
  p ∈ s.peersBitfieldMap ∧ ∀ orders : List (List ℕ), orders.length = c.bufferSize.toNat + 1 →
    ∃ request, s.selects p orders = .ok (some request)

/-- some registered peer has some piece that is not COMPLETED -/
def Wanted (s : PieceManager) : Prop :=
  ∃ p bf x st, s.peersBitfieldMap.lookup p = some bf ∧ x ∈ haveSet bf ∧ s.stateOf x = some st ∧ st ≠ .completed

/-- the buffer is full, no registered peer has any piece in it, and no affinity piece has a missing block -/
def Wedged (s : PieceManager) : Prop :=
  s.buffer.isFull = true ∧ ∀ p bf, s.peersBitfieldMap.lookup p = some bf →
    (∀ x ∈ haveSet bf, s.buffer.slotOf x = none) ∧
    ∀ x q, s.peerPieceAffinityMap.lookup p = some x → s.buffer.slotOf x = some q → .dontHave ∉ q.blocksState

/-- peer `p` has a piece in the buffer, or one that it could open, or an affinity piece with a missing block -/
def Eligible (s : PieceManager) (p : ℕ) : Prop :=
  ∃ bf, s.peersBitfieldMap.lookup p = some bf ∧ ((∃ x ∈ haveSet bf, s.buffer.slotOf x ≠ none) ∨
    (s.buffer.isFull = false ∧ ∃ x ∈ haveSet bf, s.stateOf x = some .notStarted) ∨
    ∃ x q, s.peerPieceAffinityMap.lookup p = some x ∧ s.buffer.slotOf x = some q ∧ .dontHave ∈ q.blocksState)

theorem slot_eq_none_iff : s.toStore.slot x = none ↔ s.buffer.slotOf x = none := by simp [toStore]

theorem keys_length_congr (hs : s.Shape c) (ht : t.Shape c) (h : t.toStore.slot = s.toStore.slot) :
    t.buffer.pieceBufferMap.keys.length = s.buffer.pieceBufferMap.keys.length := by
  apply List.Perm.length_eq
  apply (List.perm_ext_iff_of_nodup t.buffer.pieceBufferMap.keys_nodup s.buffer.pieceBufferMap.keys_nodup).2
  intro y
  rw [mem_keys_iff_slot ht.wf, mem_keys_iff_slot hs.wf, h]

/-- with the same pieces in it, a buffer is as full as before -/
theorem isFull_congr (hs : s.Shape c) (ht : t.Shape c) (h : t.toStore.slot = s.toStore.slot) :
    t.buffer.isFull = s.buffer.isFull := by
  rw [isFull, isFull, keys_length_congr hs ht h, ht.slots, hs.slots]

/-- **An empty-handed call** of a registered peer: there was nothing to choose, or a stale piece was closed. -/
theorem empty_handed (h : s.Inv c sha1) {bf : List PeerPieceState} (hbf : s.peersBitfieldMap.lookup p = some bf)
    {order : List ℕ} (hr : s.selectNextBlock p order = .ok (none, t)) :
    (t.toStore = s.toStore ∧ s.toStore.affinity p = none ∧ (∀ x ∈ haveSet bf, s.toStore.slot x = none) ∧
      (s.buffer.isFull = true ∨ ∀ x ∈ haveSet bf, s.toStore.state x ≠ some .notStarted)) ∨
    ∃ x sl, s.toStore.slot x = some sl ∧ .dontHave ∉ sl.blocks ∧ (∀ y, s.toStore.affinity p = some y → y = x) ∧
      t.toStore.slot = s.toStore.slot ∧ t.toStore.state = Function.update s.toStore.state x (some .allRequested) ∧
      s.toStore.state x = some .buffered ∧ (∀ q y, t.toStore.affinity q = some y → s.toStore.affinity q = some y) ∧
      t.toStore.Stale ⊂ s.toStore.Stale := by
  rcases selectNextBlock_cases h hr with
    ⟨hnone, -, -⟩ | ⟨bf', chosen, u, hbf', hchoice, -, -, ⟨hch, -, htu⟩ | ⟨x, sl, hch, hxu, hsl, hreq, hstore⟩⟩
  · rw [hbf] at hnone
    cases hnone
  · left
    rw [hbf, Option.some.injEq] at hbf'
    subst hbf' hch htu
    generalize htt : t.toStore = v at hchoice
    cases hchoice with
    | nothing ha hopen hstart => exact ⟨rfl, ha, hopen, hstart⟩
  · right
    rw [hbf, Option.some.injEq] at hbf'
    subst hbf' hch
    have hmiss : firstMissing sl.blocks = none := by
      rw [eq_comm, Option.map_eq_none_iff] at hreq
      exact hreq
    obtain ⟨hstate, hslot, hx, haffp, haff⟩ := hchoice.of_stale h.good.inv hsl hmiss
    obtain ⟨hslot', hstate', haff'⟩ := retrieve_stale hsl hmiss
    have hstale := stale_retrieve hxu hsl hmiss
    have hsame : u.toStore.Stale = s.toStore.Stale := by simp only [Stale, hstate, hslot]
    refine ⟨x, sl, by rw [← hslot]; exact hsl, firstMissing_eq_none.1 hmiss, haffp, ?_, ?_, hx, ?_, ?_⟩
    · rw [hstore, hslot', hslot]
    · rw [hstore, hstate', hstate]
    · intro q y hq
      rw [hstore, haff'] at hq
      obtain ⟨hyx, hq'⟩ := (dropAffinity_eq_some _ _ _).1 hq
      exact haff q y hyx hq'
    · rw [hstore, ← hsame]
      exact hstale

/-! ## Eligible peers are served -/

theorem stale_subset (h : s.Inv c sha1) : s.toStore.Stale ⊆ (s.buffer.pieceBufferMap.keys.toFinset : Set ℕ) := by
  intro x hx
  obtain ⟨-, sl, hsl, -⟩ := hx
  rw [Finset.mem_coe, List.mem_toFinset]
  exact (mem_keys_iff_slot h.shape.wf x).2 (by simp [hsl])

/-- there are at most as many stale pieces as pieces in the buffer -/
theorem stale_ncard_le (h : s.Inv c sha1) : s.toStore.Stale.ncard ≤ s.buffer.pieceBufferMap.keys.length :=
  calc s.toStore.Stale.ncard ≤ (s.buffer.pieceBufferMap.keys.toFinset : Set ℕ).ncard :=
        Set.ncard_le_ncard (stale_subset h) (Finset.finite_toSet _)
    _ = s.buffer.pieceBufferMap.keys.toFinset.card := Set.ncard_coe_finset _
    _ = s.buffer.pieceBufferMap.keys.length := List.toFinset_card_of_nodup s.buffer.pieceBufferMap.keys_nodup

/-- a peer that comes away empty-handed although it has something to choose from has it still -/
theorem Eligible.empty_handed (h : s.Inv c sha1) (he : s.Eligible p) {order : List ℕ}
    (hr : s.selectNextBlock p order = .ok (none, t)) :
    t.Eligible p ∧ t.toStore.slot = s.toStore.slot ∧ t.toStore.Stale ⊂ s.toStore.Stale := by
  obtain ⟨bf, hbf, hel⟩ := he
  have hshape := (selectNextBlock_moves h hr).shape
  have hbits := selectNextBlock_bitfields h hr
  rcases PieceManager.empty_handed h hbf hr with
    ⟨-, ha, hopen, hstart⟩ | ⟨x, sl, hsl, hmiss, haffp, hslot, hstate, hx, -, hstale⟩
  · exfalso
    rcases hel with ⟨y, hy, hys⟩ | ⟨hfull, y, hy, hyst⟩ | ⟨y, q, hy, -, -⟩
    · exact hys (slot_eq_none_iff.1 (hopen y hy))
    · rcases hstart with hf | hno
      · rw [hfull] at hf
        cases hf
      · exact hno y hy hyst
    · rw [show s.toStore.affinity p = some y from hy] at ha
      cases ha
  · have hfull := isFull_congr h.shape hshape hslot
    refine ⟨⟨bf, by rw [hbits]; exact hbf, ?_⟩, hslot, hstale⟩
    rcases hel with ⟨y, hy, hys⟩ | ⟨hf, y, hy, hyst⟩ | ⟨y, q, hy, hq, hqm⟩
    · refine Or.inl ⟨y, hy, fun hn => hys (slot_eq_none_iff.1 ?_)⟩
      rw [← hslot]
      exact slot_eq_none_iff.2 hn
    · refine Or.inr (Or.inl ⟨hfull.trans hf, y, hy, ?_⟩)
      have hyx : y ≠ x := by
        intro hyx
        subst hyx
        rw [show s.toStore.state y = some .notStarted from hyst] at hx
        cases hx
      rw [show t.stateOf y = t.toStore.state y from rfl, hstate, Function.update_of_ne hyx]
      exact hyst
    · -- the affinity piece would have been chosen
      obtain rfl := haffp y hy
      rw [toStore_slot hq, Option.some.injEq] at hsl
      subst hsl
      exact absurd hqm hmiss

/-- **Eligible peers are served**: there are fewer empty-handed calls in a row than stale pieces, and one more. -/
theorem served_of_eligible (h : s.Inv c sha1) (hf : s.Fits c) (hsmall : s.buffer.pieceBufferMap.keys.length < 2 ^ 31)
    (he : s.Eligible p) {orders : List (List ℕ)} (hlen : s.toStore.Stale.ncard < orders.length) :
    ∃ request, s.selects p orders = .ok (some request) := by
  induction orders generalizing s with
  | nil => simp at hlen
  | cons order orders ih =>
    obtain ⟨r, t, hr⟩ := selectNextBlock_total h hf hsmall p order
    rw [selects, hr, ok_bind]
    cases r with
    | some request => exact ⟨request, rfl⟩
    | none =>
      obtain ⟨het, hslot, hstale⟩ := he.empty_handed h hr
      have hinv := (selectNextBlock_moves h hr).inv h
      have hlt := Set.ncard_lt_ncard hstale ((Finset.finite_toSet _).subset (stale_subset h))
      have hkeys := keys_length_congr h.shape hinv.shape hslot
      rw [List.length_cons] at hlen
      exact ih hinv (hf.select h hr) (by omega) het (by omega)

/-- peer `p` is registered, and has a piece that is in the buffer or one that it could open -/
def Offered (s : PieceManager) (p : ℕ) : Prop :=
  ∃ bf, s.peersBitfieldMap.lookup p = some bf ∧ ((∃ x ∈ haveSet bf, s.buffer.slotOf x ≠ none) ∨
    (s.buffer.isFull = false ∧ ∃ x ∈ haveSet bf, s.stateOf x = some .notStarted))

theorem Offered.eligible (h : s.Offered p) : s.Eligible p := by
  obtain ⟨bf, hbf, hopen | hfresh⟩ := h
  · exact ⟨bf, hbf, Or.inl hopen⟩
  · exact ⟨bf, hbf, Or.inr (Or.inl hfresh)⟩

/-- who is eligible is served within one call more than the buffer has slots -/
theorem Eligible.served (he : s.Eligible p) (h : s.Inv c sha1) (hf : s.Fits c)
    (hsmall : s.buffer.pieceBufferMap.keys.length < 2 ^ 31) : s.Served c p := by
  refine ⟨?_, fun orders hlen => served_of_eligible h hf hsmall he ?_⟩
  · obtain ⟨bf, hbf, -⟩ := he
    exact AList.lookup_isSome.1 (by rw [hbf]; rfl)
  · calc s.toStore.Stale.ncard ≤ s.buffer.pieceBufferMap.keys.length := stale_ncard_le h
      _ ≤ c.bufferSize.toNat := h.keys_length_le.trans (Nat.min_le_left _ _)
      _ < orders.length := by rw [hlen]; exact Nat.lt_succ_self _

/-- **Bounded progress.** With fewer than 2^31 pieces in the buffer, a registered peer that has a piece of the buffer,
or one that it could open, is given a request by one of `buffer_size + 1` consecutive calls. -/
theorem served_when_offered (c : Config) (sha1 : Bytes → Bytes) (ops : List Op) (hops : ∀ o ∈ ops, o.Fits c)
    (s : PieceManager) (hs : c.run sha1 ops = .ok s) (hsmall : s.buffer.pieceBufferMap.keys.length < 2 ^ 31) (p : ℕ)
    (ho : s.Offered p) : s.Served c p := by
  obtain ⟨h, hf⟩ := run_fits hops hs
  exact ho.eligible.served h hf hsmall

theorem served_when_offered_onePiece : ∃ s, onePiece.run id [.updatePieceFrequencies [1] 0] = .ok s ∧
    s.Served onePiece 0 := by
  refine ⟨_, rfl, served_when_offered onePiece id [.updatePieceFrequencies [1] 0] (by decide) _ rfl (by decide) 0 ?_⟩
  exact ⟨[.havePiece], rfl, Or.inr ⟨rfl, 0, rfl, rfl⟩⟩

/-! ## Wedged managers -/

/-- `Wedged`, read on the store -/
theorem wedged_iff : s.Wedged ↔ s.buffer.isFull = true ∧ ∀ p bf, s.peersBitfieldMap.lookup p = some bf →
    (∀ x ∈ haveSet bf, s.toStore.slot x = none) ∧
    ∀ x sl, s.toStore.affinity p = some x → s.toStore.slot x = some sl → .dontHave ∉ sl.blocks := by
  have hiff : ∀ x, (∀ q, s.buffer.slotOf x = some q → .dontHave ∉ q.blocksState) ↔
      ∀ sl, s.toStore.slot x = some sl → .dontHave ∉ sl.blocks := by
    intro x
    constructor
    · intro h sl hsl
      obtain ⟨q, hq, rfl⟩ := slot_toStore hsl
      exact h q hq
    · intro h q hq
      exact h _ (toStore_slot hq)
  simp only [Wedged, slot_eq_none_iff]
  constructor
  · rintro ⟨hfull, h⟩
    exact ⟨hfull, fun p bf hbf => ⟨(h p bf hbf).1, fun x sl hx => (hiff x).1 (fun q => (h p bf hbf).2 x q hx) sl⟩⟩
  · rintro ⟨hfull, h⟩
    exact ⟨hfull, fun p bf hbf => ⟨(h p bf hbf).1, fun x q hx => (hiff x).2 (fun sl => (h p bf hbf).2 x sl hx) q⟩⟩

/-- a call on a wedged manager returns nothing and leaves it wedged -/
theorem Wedged.select (hw : s.Wedged) (h : s.Inv c sha1) {order : List ℕ} {r : Option BlockRequest}
    (hr : s.selectNextBlock p order = .ok (r, t)) : r = none ∧ t.Wedged := by
  obtain ⟨hfull, hall⟩ := wedged_iff.1 hw
  have hnone : r = none := by
    rcases selectNextBlock_cases h hr with
      ⟨-, hn, -⟩ | ⟨bf, chosen, u, hbf, hchoice, -, -, ⟨-, hn, -⟩ | ⟨x, sl, hch, hxu, hsl, hreq, -⟩⟩
    · exact hn
    · exact hn
    · obtain ⟨hopen, haff⟩ := hall p bf hbf
      subst hch
      generalize hu : u.toStore = v at hchoice hxu hsl
      cases hchoice with
      | affinity x ha =>
        rw [firstMissing_eq_none.2 (haff x sl ha hsl)] at hreq
        exact hreq
      | opened x data ha hx hS hnf hd => exact absurd hfull hnf
      | bound x ha hx hS hstart =>
        obtain ⟨sl', hsl'⟩ := h.good.inv.slot_of_state (Or.inl hx)
        rw [hopen x hS] at hsl'
        cases hsl'
      | reopened x sl' ha hx hsl' hS hstart =>
        rw [hopen x hS] at hsl'
        cases hsl'
  subst hnone
  refine ⟨rfl, ?_⟩
  have hshape := (selectNextBlock_moves h hr).shape
  have hbits := selectNextBlock_bitfields h hr
  cases hbf : s.peersBitfieldMap.lookup p with
  | none =>
    rw [selectNextBlock_unregistered hbf] at hr
    cases hr
    exact hw
  | some bf =>
    apply wedged_iff.2
    rcases empty_handed h hbf hr with ⟨htu, -⟩ | ⟨x, sl, -, -, -, hslot, -, -, haff, -⟩
    · rw [isFull_congr h.shape hshape (congrArg Store.slot htu), hbits, htu]
      exact ⟨hfull, hall⟩
    · rw [isFull_congr h.shape hshape hslot, hbits, hslot]
      exact ⟨hfull, fun q bq hq => ⟨(hall q bq hq).1, fun y sly hy => (hall q bq hq).2 y sly (haff q y hy)⟩⟩

/-- **A wedged manager serves nobody**, however often it is asked, as long as nothing else is called. -/
theorem Wedged.selects (hw : s.Wedged) (h : s.Inv c sha1) {orders : List (List ℕ)} {r : Option BlockRequest}
    (hr : s.selects p orders = .ok r) : r = none := by
  induction orders generalizing s with
  | nil => cases hr; rfl
  | cons order orders ih =>
    rw [PieceManager.selects, bind_eq_ok] at hr
    obtain ⟨⟨r', t⟩, ht, hr⟩ := hr
    obtain ⟨rfl, hwt⟩ := hw.select h ht
    exact ih hwt ((selectNextBlock_moves h ht).inv h) hr

/-- a piece that has been started and is not completed has a slot -/
theorem slotOf_ne_none (h : s.Inv c sha1) {x : ℕ}
    (hx : s.stateOf x = some .buffered ∨ s.stateOf x = some .allRequested) : s.buffer.slotOf x ≠ none := by
  obtain ⟨sl, hsl⟩ := h.good.inv.slot_of_state (x := x) hx
  intro hno
  rw [slot_eq_none_iff.2 hno] at hsl
  cases hsl

/-- who is not wedged has somebody to serve -/
theorem exists_eligible (h : s.Inv c sha1) (hw : s.Wanted) (hn : ¬ s.Wedged) : ∃ p, s.Eligible p := by
  by_cases hfull : s.buffer.isFull = true
  · have hex : ∃ p bf, s.peersBitfieldMap.lookup p = some bf ∧ ¬ ((∀ x ∈ haveSet bf, s.buffer.slotOf x = none) ∧
        ∀ x q, s.peerPieceAffinityMap.lookup p = some x → s.buffer.slotOf x = some q → .dontHave ∉ q.blocksState) := by
      by_contra hno
      refine hn ⟨hfull, ?_⟩
      intro p bf hbf
      by_contra hc
      exact hno ⟨p, bf, hbf, hc⟩
    obtain ⟨p, bf, hbf, hc⟩ := hex
    refine ⟨p, bf, hbf, ?_⟩
    by_cases hopen : ∀ x ∈ haveSet bf, s.buffer.slotOf x = none
    · right; right
      by_contra hno
      exact hc ⟨hopen, fun x q hx hq hm => hno ⟨x, q, hx, hq, hm⟩⟩
    · left
      simpa only [not_forall, exists_prop] using hopen
  · obtain ⟨p, bf, x, st, hbf, hx, hst, hne⟩ := hw
    refine ⟨p, bf, hbf, ?_⟩
    cases st with
    | notStarted => exact Or.inr (Or.inl ⟨by simpa using hfull, x, hx, hst⟩)
    | completed => exact absurd rfl hne
    | buffered => exact Or.inl ⟨x, hx, slotOf_ne_none h (Or.inl hst)⟩
    | allRequested => exact Or.inl ⟨x, hx, slotOf_ne_none h (Or.inr hst)⟩

/-- **No other wedge.** In a reachable state in which a registered peer has a piece that is not completed, and the
buffer holds fewer than 2^31 pieces, some registered peer is served exactly if the manager is not wedged. -/
theorem progress_iff (c : Config) (sha1 : Bytes → Bytes) (ops : List Op) (hops : ∀ o ∈ ops, o.Fits c)
    (s : PieceManager) (hs : c.run sha1 ops = .ok s) (hsmall : s.buffer.pieceBufferMap.keys.length < 2 ^ 31)
    (hw : s.Wanted) : (∃ p, s.Served c p) ↔ ¬ s.Wedged := by
  obtain ⟨h, hf⟩ := run_fits hops hs
  constructor
  · intro hex hwedged
    obtain ⟨p, -, hserved⟩ := hex
    obtain ⟨request, hr⟩ := hserved (List.replicate (c.bufferSize.toNat + 1) []) List.length_replicate
    cases hwedged.selects h hr
  · intro hn
    obtain ⟨p, he⟩ := exists_eligible h hw hn
    exact ⟨p, he.served h hf hsmall⟩

theorem progress_iff_onePiece : ∃ s, onePiece.run id [.updatePieceFrequencies [1] 0] = .ok s ∧
    ((∃ p, s.Served onePiece p) ↔ ¬ s.Wedged) := by
  refine ⟨_, rfl, progress_iff onePiece id [.updatePieceFrequencies [1] 0] (by decide) _ rfl (by decide) ?_⟩
  exact ⟨0, [.havePiece], 0, .notStarted, rfl, rfl, rfl, by decide⟩

/-! ## Two ways to be stuck -/

/-- a sufficient condition for a wedge that can be evaluated -/
theorem wedged_of (h : s.buffer.WF) (hfull : s.buffer.isFull = true)
    (hall : ∀ e ∈ s.peersBitfieldMap.entries, (∀ x ∈ s.buffer.pieceBufferMap.keys, e.2[x]? ≠ some .havePiece) ∧
      s.peerPieceAffinityMap.lookup e.1 = none) : s.Wedged := by
  refine ⟨hfull, ?_⟩
  intro p bf hbf
  obtain ⟨hhave, haff⟩ := hall ⟨p, bf⟩ (AList.mem_lookup_iff.1 hbf)
  refine ⟨?_, fun x q hx => by rw [haff] at hx; cases hx⟩
  intro x hx
  by_contra hno
  exact hhave x ((mem_keys_iff h).2 (Option.isSome_iff_ne_none.2 hno)) hx

/-- two pieces of one byte, and a buffer for one -/
def twoPieces : Config := ⟨.ofHashes [[1], [2]] 1 2, 1, 1, Nat.one_pos, one_lt_two_pow_32, toNat_one_pos⟩

/-- peer 0 is asked for the only block of piece 0 and leaves; peer 1 has piece 1 only -/
def wedgeOps : List Op :=
  [.updatePieceFrequencies [1, 0] 0, .selectNextBlock 0 [], .removePeer 0, .updatePieceFrequencies [0, 1] 1]

/-- a torrent of 2^31 + 1 pieces of one block each, and a buffer for all of them: after some requests the only peer,
which has every piece, could open another one, but asking for a block faults -/
theorem crowd_stuck : ∃ j s, (crowded (2 ^ 31 + 1) (by decide)).run id (.updatePieceFrequencies
      (MessageUtil.getPeerBitfield (List.replicate (2 ^ 29) 0xFF) (2 ^ 31 + 1)) 0 ::
      List.replicate j (.selectNextBlock 0 [])) = .ok s ∧
    s.buffer.isFull = false ∧
    (∃ bf z, s.peersBitfieldMap.lookup 0 = some bf ∧ z ∈ haveSet bf ∧ s.stateOf z = some .notStarted) ∧
    (∀ p ∈ s.peersBitfieldMap, p = 0) ∧ ∀ orders r, s.selects 0 ([] :: orders) ≠ .ok r := by
  obtain ⟨s₀, h0, hrun⟩ := crowd_start (n := 2 ^ 31 + 1) (m := 2 ^ 29) (by decide) le_rfl (by decide) id
  obtain ⟨j, hj, s, hs, hstop⟩ := runM_replicate_fault fun t => h0.faults (Nat.lt_succ_self (2 ^ 31)) le_rfl t
  have hnum : (crowded (2 ^ 31 + 1) (by decide)).numPieces = 2 ^ 31 + 1 := by
    simp only [crowded, Config.numPieces, TorrentMetadata.ofHashes, List.length_replicate]
  have hB : (crowded (2 ^ 31 + 1) (by decide)).bufferSize.toNat = (crowded (2 ^ 31 + 1) (by decide)).numPieces := by
    rw [hnum]; rfl
  have hc := h0.run (fun x => crowded_blocks x) hB (by omega) hs
  obtain ⟨hroom, z, hz, hzst⟩ := hc.room hB (by omega)
  refine ⟨j, s, by rw [hrun]; exact hs, Bool.eq_false_iff.2 hroom, ?_, ?_, ?_⟩
  · exact ⟨_, z, hc.bits 0, mem_haveSet_replicate hz, hzst⟩
  · intro p hp
    by_contra hne
    have hreg := AList.lookup_isSome.2 hp
    rw [hc.bits p, if_neg hne] at hreg
    cases hreg
  · intro orders r hr
    rw [PieceManager.selects, bind_eq_ok] at hr
    obtain ⟨⟨r', t⟩, ht, -⟩ := hr
    exact hstop t (by rw [step, ht]; rfl)

/-- a full buffer of pieces that only a removed peer had leaves the remaining peers without requests; and so does an
`int` that is too small -/
theorem wedge_possible :
    (∃ s, twoPieces.run id wedgeOps = .ok s ∧ s.isDownloadComplete = false ∧ s.Wanted ∧
      (¬ ∃ p, s.Served twoPieces p) ∧ ∀ p orders r, s.selects p orders = .ok r → r = none) ∧
    ∃ j s, (crowded (2 ^ 31 + 1) (by decide)).run id (.updatePieceFrequencies
        (MessageUtil.getPeerBitfield (List.replicate (2 ^ 29) 0xFF) (2 ^ 31 + 1)) 0 ::
        List.replicate j (.selectNextBlock 0 [])) = .ok s ∧
      s.Wanted ∧ ¬ ∃ p, s.Served (crowded (2 ^ 31 + 1) (by decide)) p := by
  constructor
  · obtain ⟨s, hs, hinc, hwanted, hfull, hall⟩ : ∃ s, twoPieces.run id wedgeOps = .ok s ∧ s.isDownloadComplete = false ∧
        s.Wanted ∧ s.buffer.isFull = true ∧ ∀ e ∈ s.peersBitfieldMap.entries,
          (∀ x ∈ s.buffer.pieceBufferMap.keys, e.2[x]? ≠ some .havePiece) ∧
          s.peerPieceAffinityMap.lookup e.1 = none := by
      refine ⟨_, rfl, by decide, ?_, by decide, by decide⟩
      exact ⟨1, [.dontHave, .havePiece], 1, .notStarted, rfl, rfl, rfl, by decide⟩
    have hops : ∀ o ∈ wedgeOps, o.Fits twoPieces := by decide
    have h := (run_fits hops hs).1
    have hw := wedged_of h.shape.wf hfull hall
    refine ⟨s, hs, hinc, hwanted, ?_, fun p orders r hr => hw.selects h hr⟩
    intro hex
    obtain ⟨p, -, hserved⟩ := hex
    obtain ⟨request, hr⟩ := hserved (List.replicate (twoPieces.bufferSize.toNat + 1) []) List.length_replicate
    cases hw.selects h hr
  · obtain ⟨j, s, hs, -, ⟨bf, z, hbf, hz, hzst⟩, honly, hstop⟩ := crowd_stuck
    refine ⟨j, s, hs, ⟨0, bf, z, .notStarted, hbf, hz, hzst, by decide⟩, ?_⟩
    intro hex
    obtain ⟨p, hp, hserved⟩ := hex
    obtain rfl := honly p hp
    obtain ⟨request, hr⟩ := hserved (List.replicate _ []) List.length_replicate
    rw [List.replicate_succ] at hr
    exact hstop _ _ hr

/-- with 2^31 pieces in the buffer, a peer that has a piece nobody has started, and room for it, is not served -/
theorem offered_stuck : ∃ ops s, (crowded (2 ^ 31 + 1) (by decide)).run id ops = .ok s ∧
    (∀ o ∈ ops, o.Fits (crowded (2 ^ 31 + 1) (by decide))) ∧ s.Offered 0 ∧
    ¬ s.Served (crowded (2 ^ 31 + 1) (by decide)) 0 := by
  obtain ⟨j, s, hs, hroom, ⟨bf, z, hbf, hz, hzst⟩, -, hstop⟩ := crowd_stuck
  refine ⟨_, s, hs, ?_, ⟨bf, hbf, Or.inr ⟨hroom, z, hz, hzst⟩⟩, ?_⟩
  · intro o ho
    rw [← ops_ones (by decide)] at ho
    obtain ⟨i, -, hi⟩ := List.mem_filterMap.1 ho
    exact Input.op_fits hi
  · intro hall
    obtain ⟨-, hserved⟩ := hall
    obtain ⟨request, hr⟩ := hserved (List.replicate _ []) List.length_replicate
    rw [List.replicate_succ] at hr
    exact hstop _ _ hr

end PieceManager

end SimpleTorrent
