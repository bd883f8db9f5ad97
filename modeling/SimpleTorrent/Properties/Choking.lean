/-
Requests while the peer is choked.

`send_block_requests` tests `is_choked_` once, before its loop, and each turn of the loop suspends at the write. A Choke
message that is handled meanwhile does not stop the loop.

- `Settles`: no write completes while the peer is choked and the counter, that write included, is below `MAX_IN_FLIGHT`.
- `silent_iff`: a run asks for nothing while choked exactly if all of its steps are of this kind.
- `asked_while_choked`: a request that is started after a Choke message.
-/
import SimpleTorrent.Core.Runs
import SimpleTorrent.Properties.InFlight

namespace SimpleTorrent

open Runs

/-- not a call of `select_next_block` by a choked peer; the call is made exactly if the condition of the loop holds -/
def Evaluation.Silent (e : Evaluation) : Prop := e.isChoked = true → Peer.maxInFlight ≤ e.numInFlight.toNat

instance (e : Evaluation) : Decidable e.Silent := by unfold Evaluation.Silent; infer_instance

namespace Peer

variable {sha1 : Bytes → Bytes} {s : Peer}

section Choked

variable (sha1 : Bytes → Bytes)

/-- no Request message is started by a choked peer -/
def StartsNothing (s : Peer) (o : Op) : Prop :=
  s.isChoked = true → ∀ request, (s.step sha1 o).outstanding ≠ s.outstanding ++ [request]

/-- no write completes while the peer is choked and, that write included, fewer than `MAX_IN_FLIGHT` are in flight -/
def Settles (s : Peer) : Op → Prop
  | .resume _ _ => s.IsWriting → s.isChoked = true → maxInFlight ≤ (s.numInFlight + 1).toNat
  | _ => True

instance (s : Peer) (o : Op) : Decidable (s.Settles o) := by
  cases o <;> unfold Settles <;> infer_instance

/-- in a run, `select_next_block` is not called and no Request message is started while the peer is choked -/
def SilentWhenChoked (s : Peer) (ops : List Op) : Prop :=
  (∀ e ∈ (s.run sha1 ops).evaluations, e.Silent) ∧ Along (step sha1) (StartsNothing sha1) s ops

end Choked

/-! ## Evaluations of a step -/

theorem sendBlockRequests_evaluations (s : Peer) (order : List ℕ) :
    (s.sendBlockRequests order).evaluations = s.evaluations ++ [s.evaluation] := by
  unfold sendBlockRequests
  simp only
  split_ifs
  · split <;> rfl
  · rfl

/-- a stretch of the send coroutine evaluates the condition of the loop once, unless it stops before the loop -/
theorem resume_evaluations (s : Peer) (writeOk : Bool) (order : List ℕ) : (s.resume writeOk order).evaluations =
    match s.send with
    | .waiting => if s.continueConnection && !s.isChoked then s.evaluations ++ [s.evaluation] else s.evaluations
    | .writing _ => s.evaluations ++ [⟨s.numInFlight + 1, s.isChoked,
        if writeOk then s.written + 1 else s.written, s.answered⟩]
    | .exited => s.evaluations := by
  unfold resume
  cases s.send with
  | exited => rfl
  | writing request => exact sendBlockRequests_evaluations _ order
  | waiting =>
    cases hcont : s.continueConnection with
    | false => rfl
    | true =>
      cases hchoked : s.isChoked with
      | false => simpa [hcont, hchoked] using sendBlockRequests_evaluations s order
      | true => simp

/-- **A step stays silent exactly if it settles.** -/
theorem step_silent (s : Peer) (o : Op) : (∀ e ∈ (s.step sha1 o).evaluations, e.Silent) ↔
    (∀ e ∈ s.evaluations, e.Silent) ∧ s.Settles o := by
  cases o with
  | resume writeOk order =>
    simp only [step, resume_evaluations, Settles]
    cases hs : s.send with
    | exited => simp [IsWriting, hs]
    | writing request =>
      have hw : s.IsWriting := ⟨request, hs⟩
      simp [Evaluation.Silent, hw, or_imp, forall_and]
    | waiting =>
      -- the evaluation is made by a peer that is not choked
      simp only [IsWriting, hs, reduceCtorEq, exists_false, false_imp_iff, and_true]
      split_ifs with hopen
      · have hchoked : s.isChoked = false := by simpa using (Bool.and_eq_true_iff.1 hopen).2
        simp [Evaluation.Silent, evaluation, hchoked, or_imp, forall_and]
      · rfl
  | _ =>
    -- no other step evaluates the condition
    rw [(step_frame sha1 s (by simp)).evaluations]
    exact (and_iff_left trivial).symm

/-! ## Requests of a step -/

theorem sendBlockRequests_outstanding (hfull : maxInFlight ≤ s.numInFlight.toNat) (order : List ℕ) :
    (s.sendBlockRequests order).outstanding = s.outstanding := by
  simp only [sendBlockRequests, Nat.not_lt.2 hfull, if_false]

/-- a step that settles starts no request while the peer is choked -/
theorem Settles.startsNothing {o : Op} (h : s.Settles o) : s.StartsNothing sha1 o := by
  intro hchoked request hstart
  -- a started request makes the list longer
  have hlonger : s.outstanding.length < (s.step sha1 o).outstanding.length := by
    rw [hstart, List.length_append, List.length_singleton]
    exact Nat.lt_succ_self _
  apply Nat.not_le.2 hlonger
  cases o with
  | resume writeOk order =>
    simp only [step, resume]
    cases hs : s.send with
    | exited => exact le_rfl
    | waiting =>
      simp only [hchoked, if_true]
      split_ifs <;> exact le_rfl
    | writing r => exact (congrArg List.length (sendBlockRequests_outstanding (h ⟨r, hs⟩ hchoked) order)).le
  | _ => exact (step_frame sha1 s (by simp)).outstanding

/-! ## Runs -/

/-- **No request while choked.** A run of the two coroutines, in any interleaving, neither calls `select_next_block` nor
starts a Request message while the peer is choked, exactly if no write completes while the peer is choked and the
counter is still below the limit. -/
theorem silent_iff (sha1 : Bytes → Bytes) (m : PieceManager) (id n : ℕ) (ops : List Op) :
    (init m id n).SilentWhenChoked sha1 ops ↔ Along (step sha1) Settles (init m id n) ops := by
  have hinit : ∀ e ∈ (init m id n).evaluations, e.Silent := by
    intro e he
    cases he
  have hrun : (∀ e ∈ ((init m id n).run sha1 ops).evaluations, e.Silent) ↔ Along (step sha1) Settles (init m id n) ops :=
    (foldl_iff_along (I := fun s : Peer => ∀ e ∈ s.evaluations, e.Silent) step_silent).trans (and_iff_right hinit)
  rw [SilentWhenChoked, hrun]
  exact and_iff_left_of_imp (Along.imp fun s o h => h.startsNothing)

/-- Unchoke, the request for the first block is written, Choke, the write completes: the request for the second block
is started -/
theorem asked_while_choked : ∃ m, PieceManager.onePiece.run id [.updatePieceFrequencies [1] 0] = .ok m ∧
    ¬ (init m 0 1).SilentWhenChoked id [.handle 1 [], .resume true [], .handle 0 [], .resume true []] ∧
    ((init m 0 1).run id [.handle 1 [], .resume true [], .handle 0 []]).isChoked = true ∧
    ((init m 0 1).run id [.handle 1 [], .resume true [], .handle 0 []]).outstanding = [⟨0, 0, 1⟩] ∧
    ((init m 0 1).run id [.handle 1 [], .resume true [], .handle 0 [], .resume true []]).outstanding =
      [⟨0, 0, 1⟩, ⟨0, 1, 1⟩] := by
  refine ⟨_, rfl, ?_, ?_, ?_, ?_⟩
  · intro h
    exact absurd h.1 (by decide)
  · decide
  · decide
  · decide

end Peer

end SimpleTorrent
