/-
The in-flight counter of a peer.

`num_in_flight_` is incremented by the send coroutine after each write and decremented for every Piece message of 9 bytes
or more, whatever block it carries. So it counts the requests in flight only as long as the remote peer behaves.

- `Clean`: a step after which the count is still right. A Piece message answers an outstanding request, and not the only
  one while that is still being written; a write succeeds.
- `in_flight_accounted`: in a run of clean steps every evaluation of the send loop's condition sees at most 5, and the
  number of requests written and not answered; the counter never wraps.
- `drift_possible`: each of the three conditions is needed. After one unasked Piece message the counter is 255, and the
  peer never requests anything.
-/
import SimpleTorrent.Properties.Coherence
import SimpleTorrent.Model.Peer

namespace SimpleTorrent

/-- at most `MAX_IN_FLIGHT`, and the requests written less those answered -/
def Evaluation.Accounted (e : Evaluation) : Prop :=
  e.numInFlight.toNat ≤ Peer.maxInFlight ∧ e.numInFlight.toNat + e.answered = e.written

instance (e : Evaluation) : Decidable e.Accounted := by unfold Evaluation.Accounted; infer_instance

namespace Peer

variable {sha1 : Bytes → Bytes} {s : Peer}

/-! ## Clean runs -/

section Clean

variable (sha1 : Bytes → Bytes)

def IsWriting (s : Peer) : Prop := ∃ request, s.send = .writing request

/-- the block answers an outstanding request, and not the only one while that is being written -/
def Expected (s : Peer) (block : Block) : Prop :=
  (∃ request ∈ s.outstanding, answers block request = true) ∧ (s.IsWriting → 1 < s.outstanding.length)

/-- a step that keeps the count of requests in flight right -/
def Clean (s : Peer) : Op → Prop
  | .resume writeOk _ => s.IsWriting → writeOk = true
  | .handle type payload => s.mainRoutineHasExited = false → messageType type = .piece →
      ∀ block pieceManager, pieceBlock payload = some block →
        s.pieceManager.addBlock sha1 s.peerNumId block = .ok pieceManager → s.Expected block
  | .other _ | .timeout | .receiveLoop => True

def CleanRun (s : Peer) : List Op → Prop
  | [] => True
  | o :: ops => s.Clean sha1 o ∧ CleanRun (s.step sha1 o) ops

end Clean

/-! ## The invariant -/

/-- the request being written, if any -/
def pending (s : Peer) : ℕ :=
  match s.send with
  | .writing _ => 1
  | _ => 0

theorem pending_writing (h : s.IsWriting) : s.pending = 1 := by
  obtain ⟨request, h⟩ := h
  simp only [pending, h]

theorem pending_idle (h : ¬ s.IsWriting) : s.pending = 0 := by
  cases hs : s.send with
  | writing request => exact absurd ⟨request, hs⟩ h
  | _ => simp only [pending, hs]

/-- the books of a peer -/
structure Books (s : Peer) (pending : ℕ) : Prop where
  evaluations : ∀ e ∈ s.evaluations, e.Accounted
  wrapped : s.wrapped = false
  counter : s.numInFlight.toNat + s.answered = s.written
  /-- what was started is written, or being written -/
  started : s.outstanding.length + s.answered = s.written + pending
  bound : s.numInFlight.toNat + pending ≤ maxInFlight

def Inv (s : Peer) : Prop := s.Books s.pending

theorem init_inv (m : PieceManager) (id n : ℕ) : (init m id n).Inv := by
  refine ⟨?_, rfl, rfl, rfl, Nat.zero_le _⟩
  intro e he
  cases he

/-- a change of what the books do not mention -/
theorem Books.congr {t : Peer} {k : ℕ} (h : s.Books k) (he : t.evaluations = s.evaluations) (hw : t.wrapped = s.wrapped)
    (hc : t.numInFlight = s.numInFlight) (hwr : t.written = s.written) (ha : t.answered = s.answered)
    (ho : t.outstanding = s.outstanding) : t.Books k := by
  refine ⟨?_, ?_, ?_, ?_, ?_⟩
  · rw [he]; exact h.evaluations
  · rw [hw]; exact h.wrapped
  · rw [hc, ha, hwr]; exact h.counter
  · rw [ho, ha, hwr]; exact h.started
  · rw [hc]; exact h.bound

/-! ## One step -/

/-- what the evaluation at the head of the send loop records is right -/
theorem Books.evaluate (h : s.Books 0) : Books { s with evaluations := s.evaluations ++ [s.evaluation] } 0 := by
  refine ⟨?_, h.wrapped, h.counter, h.started, h.bound⟩
  intro e he
  rcases List.mem_append.1 he with he | he
  · exact h.evaluations e he
  · rw [List.mem_singleton] at he
    subst he
    exact ⟨h.bound, h.counter⟩

/-- from the head of the send loop to its next suspension -/
theorem sendBlockRequests_inv (h : s.Books 0) (order : List ℕ) : (s.sendBlockRequests order).Inv := by
  have hev := h.evaluate
  unfold sendBlockRequests
  by_cases hlt : s.numInFlight.toNat < maxInFlight
  · simp only [hlt, if_true]
    cases s.pieceManager.selectNextBlock s.peerNumId order with
    | error f => exact hev.congr rfl rfl rfl rfl rfl rfl
    | ok r =>
      obtain ⟨request, m⟩ := r
      cases request with
      | none => exact hev.congr rfl rfl rfl rfl rfl rfl
      | some request =>
        -- one more request is outstanding, and pending
        refine ⟨hev.evaluations, hev.wrapped, hev.counter, ?_, hlt⟩
        have hstarted := hev.started
        simp only [List.length_append, List.length_singleton, pending] at hstarted ⊢
        omega
  · simp only [hlt, if_false]
    exact hev.congr rfl rfl rfl rfl rfl rfl

/-- below the limit the counter does not overflow -/
theorem Books.toNat_succ (h : s.Books 1) : (s.numInFlight + 1).toNat = s.numInFlight.toNat + 1 := by
  have hbound : s.numInFlight.toNat + 1 ≤ 5 := h.bound
  have hone : (1 : UInt8).toNat = 1 := rfl
  rw [UInt8.toNat_add, hone]
  exact Nat.mod_eq_of_lt (by omega)

/-- the write that was pending is counted -/
theorem Books.count (h : s.Books 1) : Books { s with numInFlight := s.numInFlight + 1, written := s.written + 1 } 0 := by
  have hcounter := h.counter
  have hstarted := h.started
  refine ⟨h.evaluations, h.wrapped, ?_, ?_, ?_⟩
  · simp only [h.toNat_succ]
    omega
  · simp only
    omega
  · simp only [h.toNat_succ]
    exact h.bound

/-- an expected block is one request less in flight -/
theorem Books.answer {block : Block} (h : s.Books s.pending) (he : s.Expected block) (m : PieceManager) :
    Inv { s with
      pieceManager := m
      numInFlight := s.numInFlight - 1
      wrapped := s.wrapped || s.numInFlight == 0
      answered := if s.outstanding.any (answers block) then s.answered + 1 else s.answered
      outstanding := s.outstanding.eraseP (answers block) } := by
  obtain ⟨⟨request, hmem, hans⟩, hwriting⟩ := he
  have hany : s.outstanding.any (answers block) = true := List.any_eq_true.2 ⟨request, hmem, hans⟩
  have hlen : 0 < s.outstanding.length := List.length_pos_of_mem hmem
  have hcounter := h.counter
  have hstarted := h.started
  have hbound := h.bound
  -- a request whose write has completed is outstanding
  have hpos : 0 < s.numInFlight.toNat := by
    by_cases hw : s.IsWriting
    · rw [pending_writing hw] at hstarted
      have := hwriting hw
      omega
    · rw [pending_idle hw] at hstarted
      omega
  have hpred : (s.numInFlight - 1).toNat = s.numInFlight.toNat - 1 := UInt8.toNat_sub_of_le _ _ hpos
  have hne : (s.numInFlight == 0) = false := by
    apply beq_false_of_ne
    intro h0
    rw [h0] at hpos
    exact absurd hpos (by decide)
  refine ⟨h.evaluations, ?_, ?_, ?_, ?_⟩
  · simp only [h.wrapped, hne, Bool.or_self]
  · simp only [hpred, hany, if_true]
    omega
  · simp only [hany, if_true, List.length_eraseP_of_mem hmem hans, pending] at hstarted ⊢
    omega
  · simp only [hpred, pending] at hbound ⊢
    omega

theorem handlePieceMessage_inv {payload : Bytes} (h : s.Inv)
    (hc : ∀ block m, pieceBlock payload = some block → s.pieceManager.addBlock sha1 s.peerNumId block = .ok m →
      s.Expected block) : (s.handlePieceMessage sha1 payload).Inv := by
  unfold handlePieceMessage
  cases hb : pieceBlock payload with
  | none => exact h
  | some block =>
    simp only
    cases hadd : s.pieceManager.addBlock sha1 s.peerNumId block with
    | error f => exact Books.congr h rfl rfl rfl rfl rfl rfl
    | ok m => exact Books.answer h (hc block m hb hadd) m

theorem handleMessage_inv {type : UInt8} {payload : Bytes} (h : s.Inv)
    (hc : messageType type = .piece → ∀ block m, pieceBlock payload = some block →
      s.pieceManager.addBlock sha1 s.peerNumId block = .ok m → s.Expected block) :
    (s.handleMessage sha1 type payload).Inv := by
  unfold handleMessage
  cases ht : messageType type with
  | piece => exact handlePieceMessage_inv h (hc ht)
  | bitfield =>
    simp only [handleBitfieldMessage]
    split
    · exact Books.congr h rfl rfl rfl rfl rfl rfl
    · exact Books.congr h rfl rfl rfl rfl rfl rfl
  | choke => exact Books.congr h rfl rfl rfl rfl rfl rfl
  | unchoke => exact Books.congr h rfl rfl rfl rfl rfl rfl
  | _ => exact h

theorem resume_inv {writeOk : Bool} {order : List ℕ} (h : s.Inv) (hc : s.IsWriting → writeOk = true) :
    (s.resume writeOk order).Inv := by
  unfold resume
  cases hs : s.send with
  | exited => exact h
  | writing request =>
    have hw : s.IsWriting := ⟨request, hs⟩
    rw [Inv, pending_writing hw] at h
    simp only [hc hw, if_true]
    exact sendBlockRequests_inv h.count order
  | waiting =>
    have hidle : s.pending = 0 := by simp only [pending, hs]
    have hbooks : s.Books 0 := hidle ▸ h
    by_cases hcont : s.continueConnection = true
    · by_cases hchoked : s.isChoked = true
      · simpa only [hcont, hchoked, Bool.not_true, Bool.false_eq_true, if_false, if_true] using h
      · simpa only [hcont, hchoked, Bool.not_true, Bool.false_eq_true, if_false] using sendBlockRequests_inv hbooks order
    · simp only [hcont, Bool.not_false, if_true]
      exact Books.congr hbooks rfl rfl rfl rfl rfl rfl

/-- **A clean step keeps the books.** -/
theorem step_inv (h : s.Inv) {o : Op} (hc : s.Clean sha1 o) : (s.step sha1 o).Inv := by
  cases o with
  | resume writeOk order => exact resume_inv h hc
  | handle type payload =>
    simp only [step]
    cases hexit : s.mainRoutineHasExited with
    | false => exact handleMessage_inv h (hc hexit)
    | true => exact h
  | other o =>
    simp only [step]
    cases s.pieceManager.step sha1 o with
    | error f => exact h
    | ok m => exact Books.congr h rfl rfl rfl rfl rfl rfl
  | timeout => exact Books.congr h rfl rfl rfl rfl rfl rfl
  | receiveLoop =>
    simp only [step]
    split
    · exact h
    · exact Books.congr h rfl rfl rfl rfl rfl rfl

/-! ## Unclean steps -/

/-- an evaluation at the head of the send loop is recorded -/
theorem evaluation_mem (s : Peer) (order : List ℕ) : s.evaluation ∈ (s.sendBlockRequests order).evaluations := by
  have hmem : s.evaluation ∈ s.evaluations ++ [s.evaluation] := List.mem_append_right _ (List.mem_singleton_self _)
  unfold sendBlockRequests
  by_cases hlt : s.numInFlight.toNat < maxInFlight
  · simp only [hlt, if_true]
    split
    · exact hmem
    · exact hmem
    · exact hmem
  · simp only [hlt, if_false]
    exact hmem

/-- a block that answers nothing, or too early, is one decrement too many -/
theorem Books.unexpected {block : Block} (h : s.Books s.pending) (he : ¬ s.Expected block)
    (hwrap : (s.wrapped || s.numInFlight == 0) = false) :
    (s.numInFlight - 1).toNat + (if s.outstanding.any (answers block) then s.answered + 1 else s.answered) ≠
      s.written := by
  have hcounter := h.counter
  have hstarted := h.started
  have hpos : 0 < s.numInFlight.toNat := by
    rw [h.wrapped, Bool.false_or, beq_eq_false_iff_ne] at hwrap
    apply Nat.pos_of_ne_zero
    intro h0
    exact hwrap (UInt8.toNat_inj.1 h0)
  have hpred : (s.numInFlight - 1).toNat = s.numInFlight.toNat - 1 := UInt8.toNat_sub_of_le _ _ hpos
  by_cases hany : s.outstanding.any (answers block) = true
  · -- then it is the only outstanding request, and still being written, so that the counter is zero
    exfalso
    apply he
    refine ⟨List.any_eq_true.1 hany, ?_⟩
    intro hw
    rw [pending_writing hw] at hstarted
    omega
  · rw [if_neg hany, hpred]
    omega

/-- **Any other step spoils the books.** -/
theorem unclean_step (h : s.Inv) {o : Op} (hc : ¬ s.Clean sha1 o) : ¬ (s.step sha1 o).Inv := by
  intro ht
  cases o with
  | resume writeOk order =>
    simp only [Clean, Classical.not_imp, Bool.not_eq_true] at hc
    obtain ⟨hw, rfl⟩ := hc
    rw [Inv, pending_writing hw] at h
    obtain ⟨request, hs⟩ := hw
    simp only [step, resume, hs, Bool.false_eq_true, if_false] at ht
    -- the counter was incremented for a write that failed
    have hacc := (ht.evaluations _ (evaluation_mem _ order)).2
    have hcounter := h.counter
    simp only [evaluation, h.toNat_succ] at hacc
    omega
  | handle type payload =>
    simp only [Clean, Classical.not_imp, not_forall] at hc
    obtain ⟨hexit, htype, block, m, hb, hadd, he⟩ := hc
    simp only [step, hexit, Bool.false_eq_true, if_false, handleMessage, htype, handlePieceMessage, hb, hadd] at ht
    exact Books.unexpected h he ht.wrapped ht.counter
  | other _ => exact hc trivial
  | timeout => exact hc trivial
  | receiveLoop => exact hc trivial

/-! ## Runs -/

theorem run_inv {ops : List Op} (h : s.Inv) (hc : s.CleanRun sha1 ops) : (s.run sha1 ops).Inv := by
  induction ops generalizing s with
  | nil => exact h
  | cons o ops ih => exact ih (step_inv h hc.1) hc.2

/-- **In-flight accounting.** In a run whose steps are all clean, every evaluation of the send loop's condition sees a
counter of at most `MAX_IN_FLIGHT` that is the number of requests written and not answered, and the counter never
wraps. -/
theorem in_flight_accounted (sha1 : Bytes → Bytes) (m : PieceManager) (id n : ℕ) (ops : List Op)
    (hc : (init m id n).CleanRun sha1 ops) :
    (∀ e ∈ ((init m id n).run sha1 ops).evaluations, e.Accounted) ∧ ((init m id n).run sha1 ops).wrapped = false := by
  have h := run_inv (init_inv m id n) hc
  exact ⟨h.evaluations, h.wrapped⟩

instance (s : Peer) : Decidable s.IsWriting :=
  match hs : s.send with
  | .writing request => isTrue ⟨request, hs⟩
  | .waiting => isFalse fun ⟨_, h⟩ => by rw [hs] at h; cases h
  | .exited => isFalse fun ⟨_, h⟩ => by rw [hs] at h; cases h

instance (s : Peer) (block : Block) : Decidable (s.Expected block) := by unfold Expected; infer_instance

/-- one block is requested, written, and answered -/
theorem in_flight_accounted_onePiece : ∃ m, PieceManager.onePiece.run id [.updatePieceFrequencies [1] 0] = .ok m ∧
    (∀ e ∈ ((init m 0 1).run id [.handle 1 [], .resume true [], .resume true [],
      .handle 7 [0, 0, 0, 0, 0, 0, 0, 0, 1], .resume true []]).evaluations, e.Accounted) := by
  refine ⟨_, rfl, (in_flight_accounted id _ 0 1 _ ?_).1⟩
  refine ⟨?_, fun _ => rfl, fun _ => rfl, ?_, fun _ => rfl, trivial⟩
  · intro _ h
    cases h
  · intro _ _ block m hb _
    have hblock : pieceBlock [0, 0, 0, 0, 0, 0, 0, 0, 1] = some ⟨0, 0, [1]⟩ := by decide
    obtain rfl : ⟨0, 0, [1]⟩ = block := Option.some.inj (hblock.symm.trans hb)
    decide

/-! ## Drift -/

/-- an unasked Piece message, a failed write, and an answer that is handled before the write has completed -/
theorem drift_possible : ∃ m, PieceManager.onePiece.run id [.updatePieceFrequencies [1] 0] = .ok m ∧
    (∃ e ∈ ((init m 0 1).run id [.handle 7 [0, 0, 0, 0, 0, 0, 0, 0, 1], .handle 1 [], .resume true []]).evaluations,
      e.numInFlight = 255 ∧ ¬ e.Accounted) ∧
    (∃ e ∈ ((init m 0 1).run id [.handle 1 [], .resume true [], .resume false []]).evaluations, ¬ e.Accounted) ∧
    ((init m 0 1).run id [.handle 1 [], .resume true [], .handle 7 [0, 0, 0, 0, 0, 0, 0, 0, 1]]).wrapped = true := by
  refine ⟨_, rfl, ?_, ?_, ?_⟩
  · decide
  · decide
  · decide

end Peer

end SimpleTorrent
