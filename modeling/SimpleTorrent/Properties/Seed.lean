/-
A seed finishes the download.

One registered peer has every piece, and answers what it is asked. The others do what they like: they come and go, take
requests and never answer them, and send blocks that nobody asked for, or wrong ones.

- `Round`: one question to the seed and its answer, with other calls before and between.
- `step_work`, `Seeded.run`: no call adds more than a fixed amount to what is left to do, and only wrong blocks add to it.
- `Round.play_spec`: a round is taken without a fault, and leaves less to do, or as much more as its wrong blocks cost.
- `seed_completes`: so with enough rounds, whatever went before, every piece is verified and saved.
-/
import SimpleTorrent.Properties.Availability
import SimpleTorrent.Properties.Tiling
import SimpleTorrent.Properties.Work

namespace SimpleTorrent

open Checked Buffer Store

namespace PieceManager

variable {c : Config} {sha1 : Bytes → Bytes} {T : ℕ → Bytes} {s t : PieceManager} {p x k : ℕ}

/-! ## What is left to do -/

/-- every block of every piece -/
def allBlocks (c : Config) : Finset (Σ _ : ℕ, ℕ) :=
  (Finset.range c.numPieces).sigma fun x => Finset.range (c.layout.blocks x)

/-- more than a piece that is thrown away can cost -/
def price (c : Config) : ℕ := 2 * (allBlocks c).card + 1

noncomputable def left (c : Config) (T : ℕ → Bytes) (s : PieceManager) : ℕ :=
  s.toStore.work c.layout T (price c)

theorem missing_subset (h : s.Inv c sha1) : s.toStore.Missing c.layout ⊆ allBlocks c := by
  rintro ⟨x, k⟩ hb
  obtain ⟨hx, -, hk, -⟩ := hb
  obtain ⟨st, hst⟩ := Option.ne_none_iff_exists'.1 hx
  obtain ⟨m, hm, -⟩ := state_toStore hst
  rw [allBlocks, Finset.mem_coe, Finset.mem_sigma, Finset.mem_range, Finset.mem_range, ← h.shape.size]
  exact ⟨(List.getElem?_eq_some_iff.1 hm).1, hk⟩

theorem poisoned_subset (h : s.Inv c sha1) :
    s.toStore.Poisoned c.layout T ⊆ (s.buffer.pieceBufferMap.keys.toFinset : Set ℕ) := by
  intro x hx
  obtain ⟨sl, hsl, -⟩ := hx
  rw [Finset.mem_coe, List.mem_toFinset]
  exact (mem_keys_iff_slot h.shape.wf x).2 (by simp [hsl])

theorem Inv.bounded (h : s.Inv c sha1) (T : ℕ → Bytes) : s.toStore.Bounded c.layout T where
  missing := (Finset.finite_toSet _).subset (missing_subset h)
  stale := (Finset.finite_toSet _).subset (stale_subset h)
  poisoned := (Finset.finite_toSet _).subset (poisoned_subset h)

theorem Inv.missing_lt (h : s.Inv c sha1) : 2 * (s.toStore.Missing c.layout).ncard < price c := by
  have hle := Set.ncard_le_ncard (missing_subset h) (Finset.finite_toSet _)
  rw [Set.ncard_coe_finset] at hle
  rw [price]
  omega

/-- what can be left in any state -/
theorem left_le (h : s.Inv c sha1) (T : ℕ → Bytes) :
    s.left c T ≤ (price c + 1) * (min c.bufferSize.toNat c.numPieces + 1) := by
  have hkeys := h.keys_length_le
  have hpoisoned : (s.toStore.Poisoned c.layout T).ncard ≤ s.buffer.pieceBufferMap.keys.length := by
    rw [← List.toFinset_card_of_nodup s.buffer.pieceBufferMap.keys_nodup, ← Set.ncard_coe_finset]
    exact Set.ncard_le_ncard (poisoned_subset h) (Finset.finite_toSet _)
  have hprice := Nat.mul_le_mul_left (price c) (hpoisoned.trans hkeys)
  have hstale := (stale_ncard_le h).trans hkeys
  have hmiss := h.missing_lt
  rw [left, work, Nat.mul_succ, Nat.add_mul, Nat.one_mul]
  omega

theorem select_gains (h : s.Inv c sha1) (T : ℕ → Bytes) {order : List ℕ} {r : Option BlockRequest}
    (hr : s.selectNextBlock p order = .ok (r, t)) : Gains c.layout T (price c) s.toStore t.toStore := by
  rcases selectNextBlock_cases h hr with
    ⟨-, -, rfl⟩ | ⟨bf, chosen, u, -, hchoice, hmoves, -, ⟨-, -, rfl⟩ | ⟨x, sl, -, hx, hsl, -, hstore⟩⟩
  · exact .of_eq rfl rfl
  · exact hchoice.gains h.good.inv (h.bounded T)
  · rw [hstore]
    exact (hchoice.gains h.good.inv (h.bounded T)).trans (.retrieve ((hmoves.inv h).bounded T) hx hsl)

/-- an honest block says where it belongs -/
theorem honest_addBlock_iff {block : Block} : (Op.addBlock p block).Honest c T ↔
    block.blockOffset / c.layout.blockLength * c.layout.blockLength = block.blockOffset ∧
      block.data = blockOf c.layout (T block.pieceIndex) (block.blockOffset / c.layout.blockLength) := by
  constructor
  · intro h
    obtain ⟨k, hk, hdata⟩ := h
    rw [hk, Nat.mul_div_cancel k c.layout.blockLength_pos]
    exact ⟨rfl, hdata⟩
  · exact fun h => ⟨_, h.1.symm, h.2⟩

instance (o : Op) : Decidable (o.Honest c T) :=
  match o with
  | .updatePieceFrequencies _ _ => isTrue trivial
  | .selectNextBlock _ _ => isTrue trivial
  | .addBlock _ _ => decidable_of_iff' _ honest_addBlock_iff
  | .removePeer _ => isTrue trivial

/-- **One call**: only a wrong block adds to what is left, and not more than the price. -/
theorem step_work (hT : Content c sha1 T) (h : s.Inv c sha1) {o : Op} (ho : o.Narrow c)
    (hs : step sha1 s o = .ok t) : t.left c T ≤ s.left c T + price c ∧
      (o.Honest c T → Gains c.layout T (price c) s.toStore t.toStore) := by
  have hinv := (step_moves h ho hs).inv h
  have hgains : Gains c.layout T (price c) s.toStore t.toStore → t.left c T ≤ s.left c T + price c ∧
      (o.Honest c T → Gains c.layout T (price c) s.toStore t.toStore) :=
    fun hg => ⟨hg.work_le.trans (Nat.le_add_right _ _), fun _ => hg⟩
  cases o with
  | updatePieceFrequencies bitfield p => cases hs; exact hgains (.of_eq rfl rfl)
  | removePeer p => cases hs; exact hgains (.of_eq rfl rfl)
  | selectNextBlock p order =>
    obtain ⟨r, hu⟩ := step_select hs
    exact hgains (select_gains h T hu)
  | addBlock p block =>
    obtain ⟨t', ht', -, hcase⟩ := addBlock_spec h p block
    obtain rfl : t' = t := Except.ok.inj (ht'.symm.trans hs)
    rcases hcase with ⟨rfl, -⟩ | ⟨sl, hsl, hoff, hlen, hnot, hstore⟩
    · exact hgains (.of_eq rfl rfl)
    · obtain ⟨hlenT, hsha⟩ := hT.of_slot h hsl
      have hK := hinv.missing_lt
      rw [hstore] at hK
      refine ⟨?_, fun hhonest => Or.inl ?_⟩
      · rw [left, left, hstore]
        exact deliver_work_le h.good.inv (h.bounded T) hsl hoff hnot hlen hlenT hsha hK.le
      · obtain ⟨k, hk, hdata⟩ := hhonest
        rw [hk, Nat.mul_div_cancel k c.layout.blockLength_pos] at hnot
        rw [hk] at hoff
        rw [hk, hdata] at hK
        rw [hstore, hk, hdata]
        exact deliver_work_lt h.good.inv (h.bounded T) hsl hoff hnot hlenT hsha hK

/-! ## The seed -/

/-- the bytes a request asks for, as far as the piece has them -/
def answer (T : ℕ → Bytes) (request : BlockRequest) : Block :=
  ⟨request.pieceIndex, request.blockOffset, ((T request.pieceIndex).drop request.blockOffset).take request.blockLength⟩

/-- peer `p` answers, if it was asked -/
def reply (sha1 : Bytes → Bytes) (T : ℕ → Bytes) (p : ℕ) (s : PieceManager) :
    Option BlockRequest → Except Fault PieceManager
  | none => .ok s
  | some request => s.addBlock sha1 p (answer T request)

/-- peer `p` has every piece -/
def Seed (c : Config) (s : PieceManager) (p : ℕ) : Prop := ∀ x < c.numPieces, s.Holds p x

/-- the call neither removes peer `p` nor changes its bitfield -/
def Op.Spares (p : ℕ) : Op → Prop
  | .updatePieceFrequencies _ q => q ≠ p
  | .removePeer q => q ≠ p
  | _ => True

/-- a reachable manager with a seed -/
structure Seeded (c : Config) (sha1 : Bytes → Bytes) (p : ℕ) (s : PieceManager) : Prop where
  inv : s.Inv c sha1
  fits : s.Fits c
  seed : s.Seed c p

/-- one question to peer `p`, its answer, and the calls before and between them -/
structure Round where
  before : List Op
  order : List ℕ
  during : List Op

namespace Round

def others (r : Round) : List Op := r.before ++ r.during

/-- how many wrong blocks others send in a round -/
def wrong (c : Config) (T : ℕ → Bytes) (r : Round) : ℕ := r.others.countP fun o => ¬ o.Honest c T

def play (sha1 : Bytes → Bytes) (T : ℕ → Bytes) (p : ℕ) (s : PieceManager) (r : Round) :
    Except Fault PieceManager := do
  let s ← runM (step sha1) s r.before
  let (request, s) ← s.selectNextBlock p r.order
  let s ← runM (step sha1) s r.during
  s.reply sha1 T p request

end Round

/-! ### Questions and answers -/

/-- the answer to a request is the block it is for -/
theorem answer_request (hT : Content c sha1 T) (hx : x < c.numPieces) (hk : k < c.layout.blocks x) :
    answer T (c.request x k) = ⟨x, k * c.layout.blockLength, blockOf c.layout (T x) k⟩ := by
  have hlen : (T x).length = c.layout.len x := (hT x hx).1
  have hlt := c.layout.mul_lt_len hk
  have hsmall : c.layout.len x < 2 ^ 32 := Nat.mod_lt _ (by decide)
  have hoff : k * c.layout.blockLength % 2 ^ 32 = k * c.layout.blockLength := Nat.mod_eq_of_lt (by omega)
  have hdata : ((T x).drop (k * c.layout.blockLength)).take (c.requestLength x k) = blockOf c.layout (T x) k := by
    by_cases hlast : x + 1 = c.numPieces
    · -- the last request ends with the piece, if not before
      have hend := c.request_end_last hlast hk
      rw [blockEnd, Nat.succ_mul] at hend
      rw [blockOf, List.take_eq_take_iff, List.length_drop, hlen]
      omega
    · rw [c.requestLength_of_ne hlast, blockOf]
  simp only [answer, Config.request, hoff, hdata]

/-- a request is for a block that is still to arrive -/
theorem select_request (h : s.Inv c sha1) {order : List ℕ} {request : BlockRequest}
    (hr : s.selectNextBlock p order = .ok (some request, t)) :
    ∃ x k, request = c.request x k ∧ x < c.numPieces ∧ k < c.layout.blocks x ∧
      ⟨x, k⟩ ∈ t.toStore.Missing c.layout ∧ t.toStore.state x ≠ some .notStarted := by
  rcases selectNextBlock_cases h hr with
    ⟨-, hnone, -⟩ | ⟨bf, chosen, u, -, -, hmoves, -, ⟨-, hnone, -⟩ | ⟨x, sl, -, hx, hsl, hreq, hstore⟩⟩
  · cases hnone
  · cases hnone
  · obtain ⟨k, hk, rfl⟩ := Option.map_eq_some_iff.1 hreq.symm
    have hu := hmoves.inv h
    have hlt : k < c.layout.blocks x := (hu.good.inv.piece x).blocks sl hsl ▸ firstMissing_lt hk
    have hst : t.toStore.state x = some .buffered ∨ t.toStore.state x = some .allRequested := by
      rw [hstore, retrieve_state]
      split_ifs
      · exact Or.inl hx
      · exact Or.inr (Function.update_self ..)
    have hmem : ⟨x, k⟩ ∈ t.toStore.Missing c.layout := by
      refine ⟨?_, ?_, hlt, ?_⟩
      · rcases hst with h | h <;> simp [h]
      · rcases hst with h | h <;> simp [h]
      · intro sl' hsl' hhave
        rw [hstore, retrieve_slot, Function.update_self, Option.some.injEq] at hsl'
        subst hsl'
        rw [getElem?_markRequested, if_pos hk] at hhave
        cases hhave
    have hin := missing_subset ((selectNextBlock_moves h hr).inv h) hmem
    rw [allBlocks, Finset.mem_coe, Finset.mem_sigma, Finset.mem_range] at hin
    exact ⟨x, k, rfl, hin.1, hlt, hmem, by rcases hst with h | h <;> simp [h]⟩

/-- **An answer arrives**, and a block that was missing is missing no more, or its piece is thrown away. -/
theorem answer_work_lt (hT : Content c sha1 T) (h : s.Inv c sha1) (hx : x < c.numPieces)
    (hmiss : ⟨x, k⟩ ∈ s.toStore.Missing c.layout) (hst : s.toStore.state x ≠ some .notStarted)
    (hs : s.addBlock sha1 p (answer T (c.request x k)) = .ok t) : t.left c T < s.left c T := by
  obtain ⟨hnone, hcomplete, hk, hnot⟩ := hmiss
  have hlt : k * c.layout.blockLength < c.layout.len x := c.layout.mul_lt_len hk
  have hdiv : k * c.layout.blockLength / c.layout.blockLength = k := Nat.mul_div_cancel k c.layout.blockLength_pos
  have hlen : (T x).length = c.layout.len x := (hT x hx).1
  have hblock := length_blockOf c.layout (k := k) hlen
  have hfit : k * c.layout.blockLength + (blockOf c.layout (T x) k).length ≤ c.layout.len x := by
    rw [hblock]
    omega
  rw [answer_request hT hx hk] at hs
  obtain ⟨t', ht', -, hcase⟩ := addBlock_spec h p ⟨x, k * c.layout.blockLength, blockOf c.layout (T x) k⟩
  obtain rfl : t' = t := Except.ok.inj (ht'.symm.trans hs)
  simp only [hdiv] at hcase
  rcases hcase with ⟨rfl, hign⟩ | ⟨sl, hsl, -, -, hnot, hstore⟩
  · -- an ignored block was there already
    exfalso
    obtain ⟨sl, hsl⟩ : ∃ sl, t'.toStore.slot x = some sl := by
      apply h.good.inv.slot_of_state
      cases hstx : t'.toStore.state x with
      | none => exact absurd hstx hnone
      | some st =>
        cases st with
        | notStarted => exact absurd hstx hst
        | buffered => exact Or.inl rfl
        | allRequested => exact Or.inr rfl
        | completed => exact absurd hstx hcomplete
    exact hnot sl hsl (hign sl hsl hlt hfit)
  · obtain ⟨hlenT, hsha⟩ := hT.of_slot h hsl
    have hadd : step sha1 s (.addBlock p ⟨x, k * c.layout.blockLength, blockOf c.layout (T x) k⟩) = .ok t' := hs
    have hnarrow : (Op.addBlock p ⟨x, k * c.layout.blockLength, blockOf c.layout (T x) k⟩).Narrow c := trivial
    have hK := ((step_moves h hnarrow hadd).inv h).missing_lt
    rw [hstore] at hK
    rw [left, left, hstore]
    exact deliver_work_lt h.good.inv (h.bounded T) hsl hlt hnot hlenT hsha hK

/-! ### Rounds -/

theorem Op.Spares.lookup {o : Op} (ho : o.Spares p) (h : s.Inv c sha1) (hs : step sha1 s o = .ok t) :
    t.peersBitfieldMap.lookup p = s.peersBitfieldMap.lookup p := by
  cases o with
  | updatePieceFrequencies bitfield q =>
    cases hs
    rw [lookup_updatePieceFrequencies, if_neg fun hpq => ho hpq.symm]
  | selectNextBlock q order =>
    obtain ⟨r, hr⟩ := step_select hs
    rw [selectNextBlock_bitfields h hr]
  | addBlock q block =>
    obtain ⟨t', ht', hkeeps, -⟩ := addBlock_spec h q block
    obtain rfl : t' = t := Except.ok.inj (ht'.symm.trans hs)
    rw [hkeeps.bitfields]
  | removePeer q =>
    cases hs
    exact AList.lookup_erase_ne fun hpq => ho hpq.symm

theorem Seeded.step (h : Seeded c sha1 p s) {o : Op} (ho : o.Fits c ∧ o.Spares p) (hs : step sha1 s o = .ok t) :
    Seeded c sha1 p t := by
  refine ⟨(step_moves h.inv ho.1.narrow hs).inv h.inv, step_fits h.fits h.inv ho.1 hs, ?_⟩
  intro x hx
  rw [Holds, ho.2.lookup h.inv hs]
  exact h.seed x hx

/-- what any calls keep, and what they cost -/
theorem Seeded.run (hT : Content c sha1 T) (hsmall : min c.bufferSize.toNat c.numPieces < 2 ^ 31)
    (h : Seeded c sha1 p s) {ops : List Op} (hops : ∀ o ∈ ops, o.Fits c ∧ o.Spares p) :
    ∃ t, runM (PieceManager.step sha1) s ops = .ok t ∧ Seeded c sha1 p t ∧ Moves c sha1 s t ∧
      t.left c T ≤ s.left c T + price c * ops.countP (fun o => ¬ o.Honest c T) ∧
      (ops.countP (fun o => ¬ o.Honest c T) = 0 → Gains c.layout T (price c) s.toStore t.toStore) := by
  induction ops generalizing s with
  | nil => exact ⟨s, rfl, h, .refl h.inv.shape, le_rfl, fun _ => .of_eq rfl rfl⟩
  | cons o ops ih =>
    have ho := hops o List.mem_cons_self
    obtain ⟨u, hu⟩ := step_total h.inv h.fits hsmall o
    obtain ⟨t, ht, hseeded, hmoves, hle, hgains⟩ := ih (h.step ho hu) fun o' ho' => hops o' (List.mem_cons_of_mem o ho')
    obtain ⟨hle', hgains'⟩ := step_work hT h.inv ho.1.narrow hu
    refine ⟨t, by rw [runM_cons, hu, ok_bind, ht], hseeded, (step_moves h.inv ho.1.narrow hu).trans hmoves, ?_, ?_⟩
    · by_cases hhonest : o.Honest c T
      · have hwork : u.left c T ≤ s.left c T := (hgains' hhonest).work_le
        rw [List.countP_cons_of_neg (by simpa using hhonest)]
        omega
      · rw [List.countP_cons_of_pos (by simpa using hhonest), Nat.mul_succ]
        omega
    · intro hzero
      have hhonest : o.Honest c T := by
        by_contra hno
        rw [List.countP_cons_of_pos (by simpa using hno)] at hzero
        omega
      rw [List.countP_cons_of_neg (by simpa using hhonest)] at hzero
      exact (hgains' hhonest).trans (hgains hzero)

/-- while a piece is left, a seed has something to choose from -/
theorem Seeded.eligible (h : Seeded c sha1 p s) (hbuf : 0 < c.bufferSize.toNat) (hx : x < c.numPieces)
    (hst : s.toStore.state x ≠ some .completed) : s.Eligible p := by
  obtain ⟨bf, hbf, -⟩ := h.seed x hx
  have hhave : ∀ y < c.numPieces, y ∈ haveSet bf := by
    intro y hy
    obtain ⟨bf', hbf', hhave⟩ := h.seed y hy
    rw [hbf, Option.some.injEq] at hbf'
    exact hbf' ▸ hhave
  have hopen : ∀ y, s.buffer.slotOf y ≠ none → s.Eligible p := by
    intro y hy
    obtain ⟨q, hq⟩ := Option.ne_none_iff_exists'.1 hy
    obtain ⟨m, hm, -⟩ := h.inv.slotOf_eq_some hq
    exact ⟨bf, hbf, Or.inl ⟨y, hhave y (h.inv.shape.size ▸ (List.getElem?_eq_some_iff.1 hm).1), hy⟩⟩
  cases hfull : s.buffer.isFull with
  | true =>
    -- a full buffer has a piece
    have hpos : 0 < s.buffer.pieceBufferMap.keys.length := by rw [isFull_iff.1 hfull, h.inv.shape.slots]; exact hbuf
    have hmem := (mem_keys_iff h.inv.shape.wf).1 (List.getElem_mem hpos)
    exact hopen _ (Option.isSome_iff_ne_none.1 hmem)
  | false =>
    have hlt : x < s.pieces.length := h.inv.shape.size.symm ▸ hx
    have hstx := toStore_state (List.getElem?_eq_getElem hlt)
    cases hstate : s.pieces[x].state with
    | notStarted => exact ⟨bf, hbf, Or.inr (Or.inl ⟨hfull, x, hhave x hx, hstate ▸ hstx⟩)⟩
    | buffered => exact hopen x (slotOf_ne_none h.inv (Or.inl (hstate ▸ hstx)))
    | allRequested => exact hopen x (slotOf_ne_none h.inv (Or.inr (hstate ▸ hstx)))
    | completed => exact absurd (hstate ▸ hstx) hst

/-- a bitfield has at most as many entries as a `uint32_t` can count -/
theorem Seeded.numPieces_lt (h : Seeded c sha1 p s) : c.numPieces < 2 ^ 32 := by
  by_contra hge
  obtain ⟨bf, hbf, hlast⟩ := h.seed (c.numPieces - 1) (by omega)
  have hlt := (List.getElem?_eq_some_iff.1 hlast).1
  have hmod := Nat.mod_lt c.numPieces (show 0 < 2 ^ 32 by decide)
  rw [h.fits.bitfields p bf hbf, bitfieldLength] at hlt
  omega

/-- every piece is COMPLETED -/
def AllCompleted (c : Config) (s : PieceManager) : Prop := ∀ x < c.numPieces, s.toStore.state x = some .completed

/-- when nothing is left, every piece is COMPLETED -/
theorem allCompleted_of_left (h : s.Inv c sha1) (hleft : s.left c T = 0) : s.AllCompleted c := by
  have hempty : s.toStore.Missing c.layout = ∅ := by
    rw [left, work] at hleft
    exact (Set.ncard_eq_zero (h.bounded T).missing).1 (by omega)
  intro x hx
  have hlt : x < s.pieces.length := h.shape.size.symm ▸ hx
  have hst := toStore_state (List.getElem?_eq_getElem hlt)
  by_contra hno
  have hne : ∃ k < c.layout.blocks x, ∀ sl, s.toStore.slot x = some sl → sl.blocks[k]? ≠ some .haveBlock := by
    cases hsl : s.toStore.slot x with
    | none => exact ⟨0, c.layout.blocks_pos x, by simp⟩
    | some sl =>
      obtain ⟨b, hb, hbne⟩ := (h.good.inv.piece x).missing sl hsl
      obtain ⟨k, hk, rfl⟩ := List.getElem_of_mem hb
      refine ⟨k, (h.good.inv.piece x).blocks sl hsl ▸ hk, ?_⟩
      intro sl' hsl'
      cases hsl'
      rw [List.getElem?_eq_getElem hk]
      exact fun e => hbne (Option.some.inj e)
  obtain ⟨k, hk, hnot⟩ := hne
  have hmem : (⟨x, k⟩ : Σ _ : ℕ, ℕ) ∈ s.toStore.Missing c.layout := ⟨by rw [hst]; simp, hno, hk, hnot⟩
  rw [hempty] at hmem
  exact hmem

/-- a call that comes back empty-handed has closed a stale piece -/
theorem empty_handed_left (h : Seeded c sha1 p s) (hbuf : 0 < c.bufferSize.toNat) (hx : x < c.numPieces)
    (hst : s.toStore.state x ≠ some .completed) {order : List ℕ} (hr : s.selectNextBlock p order = .ok (none, t)) :
    t.left c T < s.left c T := by
  obtain ⟨-, hslot, hstale⟩ := (h.eligible hbuf hx hst).empty_handed h.inv hr
  have hlt := Set.ncard_lt_ncard hstale (h.inv.bounded T).stale
  rcases select_gains h.inv T hr with hstrict | ⟨-, hmiss, -⟩
  · exact hstrict
  · have hpoisoned : t.toStore.Poisoned c.layout T = s.toStore.Poisoned c.layout T := by simp only [Poisoned, hslot]
    rw [left, left, work, work, hmiss, hpoisoned]
    omega

/-- what the seed does with its turn, if nobody sends a wrong block meanwhile -/
theorem turn_left (hT : Content c sha1 T) (hbuf : 0 < c.bufferSize.toNat) {u v w : PieceManager}
    (hu : Seeded c sha1 p u) (hw : w.Inv c sha1) {order : List ℕ} {request : Option BlockRequest}
    (hv : u.selectNextBlock p order = .ok (request, v)) (hgains : Gains c.layout T (price c) v.toStore w.toStore)
    (ht : w.reply sha1 T p request = .ok t)
    (hx : x < c.numPieces) (hst : u.toStore.state x ≠ some .completed) : t.left c T < u.left c T := by
  cases request with
  | none =>
    obtain rfl : w = t := Except.ok.inj ht
    exact lt_of_le_of_lt hgains.work_le (empty_handed_left hu hbuf hx hst hv)
  | some request =>
    obtain ⟨y, k, rfl, hy, hk, hmiss, hstart⟩ := select_request hu.inv hv
    have hle : v.left c T ≤ u.left c T := (select_gains hu.inv T hv).work_le
    have hhonest : (Op.addBlock p (answer T (c.request y k))).Honest c T := by
      rw [answer_request hT hy hk]
      exact ⟨k, rfl, rfl⟩
    have hnarrow : (Op.addBlock p (answer T (c.request y k))).Narrow c := trivial
    have hlast : t.left c T ≤ w.left c T := ((step_work hT hw hnarrow ht).2 hhonest).work_le
    rcases hgains with hstrict | ⟨hwork, hsame, hkept⟩
    · calc t.left c T ≤ w.left c T := hlast
        _ < v.left c T := hstrict
        _ ≤ u.left c T := hle
    · calc t.left c T < w.left c T := answer_work_lt (p := p) hT hw hy (hsame ▸ hmiss) (fun h => hstart (hkept y h)) ht
        _ ≤ v.left c T := hwork
        _ ≤ u.left c T := hle

/-- **One round** is taken without a fault, and what is left after it is less, or nothing, or as much more as the wrong
blocks of the round cost. -/
theorem Round.play_spec (hT : Content c sha1 T) (hbuf : 0 < c.bufferSize.toNat)
    (hsmall : min c.bufferSize.toNat c.numPieces < 2 ^ 31) (h : Seeded c sha1 p s) {r : Round}
    (hr : ∀ o ∈ r.others, o.Fits c ∧ o.Spares p) :
    ∃ t, r.play sha1 T p s = .ok t ∧ Seeded c sha1 p t ∧ (s.AllCompleted c → t.AllCompleted c) ∧
      (¬ t.AllCompleted c → t.left c T < s.left c T + (price c + 1) * r.wrong c T) := by
  obtain ⟨u, hu, hU, hmu, hleu, hgu⟩ := h.run hT hsmall fun o ho => hr o (List.mem_append_left _ ho)
  have hkeys := lt_of_le_of_lt hU.inv.keys_length_le hsmall
  obtain ⟨request, v, hv⟩ := selectNextBlock_total hU.inv hU.fits hkeys p r.order
  have hask : (Op.selectNextBlock p r.order).Fits c ∧ (Op.selectNextBlock p r.order).Spares p := ⟨trivial, trivial⟩
  have hV : Seeded c sha1 p v := hU.step hask (by rw [PieceManager.step, hv]; rfl)
  obtain ⟨w, hw, hW, hmw, hlew, hgw⟩ := hV.run hT hsmall fun o ho => hr o (List.mem_append_right _ ho)
  -- the end of the round is a call that costs nothing
  obtain ⟨t, ht, hT', hmt, hlet⟩ : ∃ t, w.reply sha1 T p request = .ok t ∧ Seeded c sha1 p t ∧ Moves c sha1 w t ∧
      t.left c T ≤ w.left c T := by
    cases request with
    | none => exact ⟨w, rfl, hW, .refl hW.inv.shape, le_rfl⟩
    | some request =>
      obtain ⟨y, k, rfl, hy, hk, -, -⟩ := select_request hU.inv hv
      obtain ⟨t, ht, -⟩ := addBlock_spec hW.inv p (answer T (c.request y k))
      have hgive : (Op.addBlock p (answer T (c.request y k))).Fits c ∧
          (Op.addBlock p (answer T (c.request y k))).Spares p := ⟨trivial, trivial⟩
      have hhonest : (Op.addBlock p (answer T (c.request y k))).Honest c T := by
        rw [answer_request hT hy hk]
        exact ⟨k, rfl, rfl⟩
      exact ⟨t, ht, hW.step hgive ht, step_moves hW.inv hgive.1.narrow ht,
        ((step_work hT hW.inv hgive.1.narrow ht).2 hhonest).work_le⟩
  have hmoves : Moves c sha1 u t := (selectNextBlock_moves hU.inv hv).trans (hmw.trans hmt)
  refine ⟨t, ?_, hT', fun hall x hx => (hmu.trans hmoves).completed h.inv (hall x hx), fun hno => ?_⟩
  · rw [Round.play, hu, ok_bind, hv, ok_bind]
    simp only
    rw [hw, ok_bind, ht]
  · have hsel : v.left c T ≤ u.left c T := (select_gains hU.inv T hv).work_le
    have hwrong : r.wrong c T = r.before.countP (fun o => ¬ o.Honest c T) + r.during.countP (fun o => ¬ o.Honest c T) :=
      List.countP_append
    by_cases hzero : r.wrong c T = 0
    · obtain ⟨x, hx, hst⟩ : ∃ x < c.numPieces, u.toStore.state x ≠ some .completed := by
        by_contra hall
        push Not at hall
        exact hno fun x hx => hmoves.completed hU.inv (hall x hx)
      have hlt := turn_left hT hbuf hU hW.inv hv (hgw (by omega)) ht hx hst
      have hle : u.left c T ≤ s.left c T := (hgu (by omega)).work_le
      omega
    · rw [hwrong] at hzero ⊢
      rw [Nat.add_mul, Nat.one_mul, Nat.mul_add]
      omega

/-- **A seed finishes the download**, whatever the peers did before, and whatever they do before and between the
questions to the seed and its answers. With `N` blocks and room for `b` open pieces, `b + 1` times `2 * N + 2` rounds are
enough, and `2 * N + 2` more for each wrong block that others send during them. Then every piece has been verified and
saved. -/
theorem seed_completes (c : Config) (sha1 : Bytes → Bytes) (T : ℕ → Bytes) (hT : Content c sha1 T)
    (hbuf : 0 < c.bufferSize.toNat) (hsmall : min c.bufferSize.toNat c.numPieces < 2 ^ 31) (ops : List Op)
    (hops : ∀ o ∈ ops, o.Fits c) (s : PieceManager) (hs : c.run sha1 ops = .ok s) (p : ℕ) (hseed : s.Seed c p)
    (rounds : List Round) (hrounds : ∀ r ∈ rounds, ∀ o ∈ r.others, o.Fits c ∧ o.Spares p)
    (henough : (2 * ∑ x ∈ Finset.range c.numPieces, c.layout.blocks x + 2) *
      (min c.bufferSize.toNat c.numPieces + 1 + (rounds.map (Round.wrong c T)).sum) ≤ rounds.length) :
    ∃ t, runM (Round.play sha1 T p) s rounds = .ok t ∧ t.isDownloadComplete = true ∧ ∀ x < c.numPieces, ∃ d,
      .savePiece x (c.layout.offset x) d ∈ t.trace ∧ d.length = c.layout.len x ∧ sha1 d = c.layout.hash x := by
  obtain ⟨hinv, hfits⟩ := run_fits hops hs
  have hprice : price c + 1 = 2 * ∑ x ∈ Finset.range c.numPieces, c.layout.blocks x + 2 := by
    simp [price, allBlocks]
  have hleft : s.left c T + (rounds.map fun r => (price c + 1) * r.wrong c T).sum ≤ rounds.length := by
    have hle := left_le hinv T
    rw [← hprice, Nat.mul_add] at henough
    rw [List.sum_map_mul_left]
    exact (Nat.add_le_add_right hle _).trans henough
  obtain ⟨t, ht, hseeded, hall⟩ := runM_reaches (fun r => (price c + 1) * r.wrong c T)
    (P := fun r : Round => ∀ o ∈ r.others, o.Fits c ∧ o.Spares p) (I := Seeded c sha1 p) (G := AllCompleted c)
    (fun u r hu hr => Round.play_spec hT hbuf hsmall hu hr) (fun u hu => allCompleted_of_left hu.inv)
    ⟨hinv, hfits, hseed⟩ hrounds (Or.inr hleft)
  refine ⟨t, ht, hseeded.inv.complete_iff.2 ⟨hseeded.numPieces_lt, hall⟩, ?_⟩
  intro x hx
  obtain ⟨off, d, hmem⟩ := mem_savedPieces.1 ((hseeded.inv.good.saves.completed x).1 (hall x hx))
  obtain ⟨rfl, hlen, hsha⟩ := hseeded.inv.good.saves.saved x off d hmem
  exact ⟨d, hmem, hlen, hsha⟩

/-- peer 1 sends a wrong block between the first question and its answer -/
def poisonedRounds : List Round :=
  ⟨[], [], [.addBlock 1 ⟨0, 1, [9]⟩]⟩ :: List.replicate 17 ⟨[.removePeer 1], [], []⟩

theorem seed_completes_onePiece : ∃ s t, onePiece.run id [.updatePieceFrequencies [1] 0] = .ok s ∧
    runM (Round.play id (fun _ => [1, 2]) 0) s poisonedRounds = .ok t ∧ t.isDownloadComplete = true ∧
    ∀ x < 1, ∃ d, .savePiece x (onePiece.layout.offset x) d ∈ t.trace ∧ d.length = onePiece.layout.len x ∧
      id d = onePiece.layout.hash x := by
  obtain ⟨s, hs⟩ : ∃ s, onePiece.run id [.updatePieceFrequencies [1] 0] = .ok s := ⟨_, rfl⟩
  have hseed : s.Seed onePiece 0 := by
    intro x hx
    have h1 : onePiece.numPieces = 1 := rfl
    obtain rfl : x = 0 := by omega
    cases hs
    exact ⟨[.havePiece], rfl, rfl⟩
  have hrounds : ∀ r ∈ poisonedRounds, ∀ o ∈ r.others, o.Fits onePiece ∧ o.Spares 0 := by
    intro r hr o ho
    rcases List.mem_cons.1 hr with rfl | hr
    · obtain rfl : o = .addBlock 1 ⟨0, 1, [9]⟩ := by simpa [Round.others] using ho
      exact ⟨trivial, trivial⟩
    · obtain rfl := List.eq_of_mem_replicate hr
      obtain rfl : o = .removePeer 1 := by simpa [Round.others] using ho
      exact ⟨trivial, Nat.one_ne_zero⟩
  obtain ⟨t, ht, hcomplete, hsaved⟩ := seed_completes onePiece id (fun _ => [1, 2]) onePiece_content (by decide)
    (by decide) [.updatePieceFrequencies [1] 0] (by decide) s hs 0 hseed poisonedRounds hrounds (by decide)
  exact ⟨s, t, hs, ht, hcomplete, hsaved⟩

end PieceManager

end SimpleTorrent
