/-
Which block `select_next_block` asks for.

The current attempt at a piece is the part of the trace since the piece last entered the buffer. In it, a block is
received when it was written to the buffer, and marked requested when it was asked for after the last reopening
(`mark`).

- `request_discipline`: the block asked for is the lowest one that is neither received nor marked requested. If it had
  been asked for before in this attempt, the piece was reopened in between, when each of its blocks had been requested
  or received.
- `received_counts`: a block that arrived without having been requested counts as well, so that a block can be asked
  for twice although another one of its piece never was.
-/
import SimpleTorrent.Properties.Coherence

namespace SimpleTorrent

open Checked Buffer Store

namespace PieceManager

variable {c : Config} {sha1 : Bytes → Bytes} {s t : PieceManager} {x p : ℕ}

/-- what the trace says of a request for block `k` of piece `x` made after it -/
structure Legitimate (c : Config) (tr : List (Event ℕ)) (x k : ℕ) : Prop where
  block : k < numBlocks c.data c.blockLength.toNat x
  missing : mark x k (attempt x tr) = .dontHave
  not_received : .writeBlock x k ∉ attempt x tr
  lowest : ∀ j < k, mark x j (attempt x tr) ≠ .dontHave
  again : ∀ a b, attempt x tr = a ++ .request x k :: b → ∃ b₁ b₂, b = b₁ ++ .clearAllRequested x :: b₂ ∧
    ∀ j < numBlocks c.data c.blockLength.toNat x,
      .request x j ∈ a ++ .request x k :: b₁ ∨ .writeBlock x j ∈ a ++ .request x k :: b₁

/-- the first missing block of an open piece can be asked for -/
theorem Inv.legitimate (h : s.Inv c sha1) {sl : Slot} (hsl : s.toStore.slot x = some sl) {k : ℕ}
    (hk : firstMissing sl.blocks = some k) : Legitimate c s.trace x k := by
  have hlen : sl.blocks.length = c.layout.blocks x := (h.good.inv.piece x).blocks sl hsl
  have hkb : k < c.layout.blocks x := hlen ▸ firstMissing_lt hk
  obtain ⟨hmiss, hlow⟩ := firstMissing_eq_some.1 hk
  have hmark : ∀ j < c.layout.blocks x, sl.blocks[j]? = some (mark x j (attempt x s.trace)) := h.good.marks x sl hsl
  have hmk : mark x k (attempt x s.trace) = .dontHave := by
    rw [hmark k hkb] at hmiss
    exact Option.some.inj hmiss
  refine ⟨hkb, hmk, ?_, ?_, ?_⟩
  · intro hw
    rw [← mark_have_iff, hmk] at hw
    cases hw
  · intro j hj hmj
    exact hlow j hj (by rw [hmark j (by omega), hmj])
  · intro a b hab
    obtain ⟨b₁, b₂, hb⟩ := handed_out_twice hab hmk
    refine ⟨b₁, b₂, hb, fun j hj => requested_or_received (x := x) (k := j) ?_⟩
    exact h.good.reopens x (a ++ .request x k :: b₁) b₂ (by simp [hab, hb]) j hj

/-- **Request discipline.** A request that `select_next_block` returns is for a block of a piece that is not completed,
and legitimate after the calls made so far (`tr`, the trace up to the request). -/
theorem request_discipline (c : Config) (sha1 : Bytes → Bytes) (ops : List Op) (hops : ∀ o ∈ ops, o.Narrow c)
    (s t : PieceManager) (p : ℕ) (order : List ℕ) (r : BlockRequest) (hs : c.run sha1 ops = .ok s)
    (hr : s.selectNextBlock p order = .ok (some r, t)) :
    ∃ k tr, r = c.request r.pieceIndex k ∧ t.trace = tr ++ [.request r.pieceIndex k] ∧ s.trace <+: tr ∧
      s.stateOf r.pieceIndex ≠ some .completed ∧ Legitimate c tr r.pieceIndex k := by
  have hinv := run_inv hops hs
  rcases selectNextBlock_cases hinv hr with
    ⟨-, hnone, -⟩ | ⟨bf, chosen, u, -, -, hmoves, -, ⟨-, hnone, -⟩ | ⟨x, sl, -, hx, hsl, hreq, hstore⟩⟩
  · cases hnone
  · cases hnone
  · obtain ⟨k, hk, rfl⟩ := Option.map_eq_some_iff.1 hreq.symm
    refine ⟨k, u.trace, rfl, ?_, hmoves.trace_grows, ?_, (hmoves.inv hinv).legitimate hsl hk⟩
    · have htrace := congrArg Store.trace hstore
      rw [retrieve_trace, hk] at htrace
      exact htrace
    · intro hcomp
      have hcomp' := hmoves.completed hinv hcomp
      rw [show u.toStore.state (c.request x k).pieceIndex = some .buffered from hx] at hcomp'
      cases hcomp'

theorem request_discipline_onePiece : ∃ s t r, onePiece.run id [.updatePieceFrequencies [1] 0] = .ok s ∧
    s.selectNextBlock 0 [] = .ok (some r, t) ∧ ∃ k tr, t.trace = tr ++ [.request r.pieceIndex k] ∧
      Legitimate onePiece tr r.pieceIndex k := by
  refine ⟨_, _, ⟨0, 0, 1⟩, rfl, rfl, ?_⟩
  obtain ⟨k, tr, -, htr, -, -, hleg⟩ := request_discipline onePiece id [.updatePieceFrequencies [1] 0]
    (by simp [Op.Narrow, onePiece]) _ _ 0 [] ⟨0, 0, 1⟩ rfl rfl
  exact ⟨k, tr, htr, hleg⟩

/-- block 0 is requested twice in one attempt, although block 1 of the piece was never requested: it had arrived
unasked -/
theorem received_counts : ∃ s, onePiece.run id [.updatePieceFrequencies [1] 0, .selectNextBlock 0 [],
      .addBlock 0 ⟨0, 1, [2]⟩, .selectNextBlock 0 [0], .selectNextBlock 0 [0]] = .ok s ∧
    attempt 0 s.trace = [.request 0 0, .writeBlock 0 1, .clearAllRequested 0, .request 0 0] ∧
    .request 0 1 ∉ s.trace := ⟨_, rfl, by decide, by decide⟩

end PieceManager

end SimpleTorrent
