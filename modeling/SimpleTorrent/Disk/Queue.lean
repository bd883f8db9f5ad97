/-
The write queue: in any interleaving of the two threads no entry is lost, doubled or overtaken.

- `FileManager.Inv`: what was enqueued is what was written, followed by the entry in hand and the queue.
- `fileWriter_cases`: all that one step of the writer can do.
- `run_inv`: the invariant holds in every run.
-/
import SimpleTorrent.Model.FileManager

namespace SimpleTorrent

open Checked

/-! ## Every entry is somewhere -/

namespace FileManager

/-- the entry the writer has taken and not written -/
def inHand (s : FileManager) : List (ℕ × Bytes) :=
  match s.writer with
  | .write value => [value]
  | _ => []

/-- the writer has passed the test of its loop -/
def PastTest (s : FileManager) : Prop := s.writer = .dequeue ∨ ∃ value, s.writer = .write value

structure Inv (s : FileManager) : Prop where
  fifo : s.enqueued = s.written ++ s.inHand ++ s.writeQueue
  count : s.writeCount = s.written.length % 2 ^ 32
  small : s.numPieces < 2 ^ 32
  busy : s.PastTest → s.writeCount ≠ s.numPieces

variable {s t : FileManager} {fileSystem : FileSystem} {data : TorrentMetadata}

theorem not_pastTest (h : s.writer = .test ∨ s.writer = .sleep ∨ s.writer = .exited) : ¬ s.PastTest := by
  intro hp
  rcases hp with hp | ⟨value, hp⟩
  · rw [hp] at h
    simp at h
  · rw [hp] at h
    simp at h

/-- when the constructor returns -/
theorem new_eq_some : new fileSystem data = some s ↔ ∃ openFiles disk,
    createAndOpenFiles fileSystem (outputFiles data) fileSystem.disk = some (openFiles, disk) ∧
      s = ⟨data.pieceHashes.length % 2 ^ 32, openFiles, disk, (outputFiles data).map (·.fileLength), [], .test, 0, [],
        []⟩ := by
  simp only [new, Option.bind_eq_bind, Option.bind_eq_some_iff, Option.pure_def, Option.some.injEq, Prod.exists,
    eq_comm (b := s)]

theorem new_inv (h : new fileSystem data = some s) : s.Inv := by
  obtain ⟨openFiles, disk, -, rfl⟩ := new_eq_some.1 h
  exact ⟨rfl, rfl, Nat.mod_lt _ (by decide), fun hp => absurd hp (not_pastTest (Or.inl rfl))⟩

theorem savePiece_inv (h : s.Inv) (fileOffset : ℕ) (data : Bytes) : (s.savePiece fileOffset data).Inv := by
  refine ⟨?_, h.count, h.small, h.busy⟩
  have hfifo := h.fifo
  simp only [savePiece, inHand] at hfifo ⊢
  rw [hfifo, List.append_assoc]

/-- what one step of the writer does -/
theorem fileWriter_cases {stop : Bool} (h : s.fileWriter stop = .ok t) :
    (s.writer = .test ∧ t = { s with writer := .dequeue } ∧ stop = false ∧ s.writeCount ≠ s.numPieces) ∨
    (s.writer = .test ∧ t = { s with writer := .exited } ∧ (stop = true ∨ s.writeCount = s.numPieces)) ∨
    (s.writer = .dequeue ∧ s.writeQueue = [] ∧ t = { s with writer := .sleep }) ∨
    (∃ value queue, s.writer = .dequeue ∧ s.writeQueue = value :: queue ∧
      t = { s with writeQueue := queue, writer := .write value }) ∨
    (∃ value disk, s.writer = .write value ∧ s.writeValue value = .ok disk ∧
      t = { s with
        disk := disk
        writer := .test
        writeCount := (s.writeCount + 1) % 2 ^ 32
        written := s.written ++ [value] }) ∨
    (s.writer = .sleep ∧ t = { s with writer := .test }) ∨
    (s.writer = .exited ∧ t = s) := by
  unfold fileWriter at h
  cases hw : s.writer with
  | test =>
    simp only [hw] at h
    split at h
    · rename_i hc
      simp only [Bool.and_eq_true, Bool.not_eq_true', bne_iff_ne] at hc
      exact Or.inl ⟨rfl, (Except.ok.inj h).symm, hc.1, hc.2⟩
    · rename_i hc
      simp only [Bool.and_eq_true, Bool.not_eq_true', bne_iff_ne, not_and_or, Bool.not_eq_false, not_not] at hc
      exact Or.inr (Or.inl ⟨rfl, (Except.ok.inj h).symm, hc⟩)
  | dequeue =>
    simp only [hw] at h
    cases hq : s.writeQueue with
    | nil =>
      simp only [hq] at h
      exact Or.inr (Or.inr (Or.inl ⟨rfl, rfl, (Except.ok.inj h).symm⟩))
    | cons value queue =>
      simp only [hq] at h
      exact Or.inr (Or.inr (Or.inr (Or.inl ⟨value, queue, rfl, rfl, (Except.ok.inj h).symm⟩)))
  | write value =>
    simp only [hw] at h
    obtain ⟨disk, hdisk, ht⟩ := bind_eq_ok.1 h
    exact Or.inr (Or.inr (Or.inr (Or.inr (Or.inl ⟨value, disk, rfl, hdisk, (Except.ok.inj ht).symm⟩))))
  | sleep =>
    simp only [hw] at h
    exact Or.inr (Or.inr (Or.inr (Or.inr (Or.inr (Or.inl ⟨rfl, (Except.ok.inj h).symm⟩)))))
  | exited =>
    simp only [hw] at h
    exact Or.inr (Or.inr (Or.inr (Or.inr (Or.inr (Or.inr ⟨rfl, (Except.ok.inj h).symm⟩)))))

theorem fileWriter_inv {stop : Bool} (hi : s.Inv) (h : s.fileWriter stop = .ok t) : t.Inv := by
  have hfifo := hi.fifo
  rcases fileWriter_cases h with ⟨hw, rfl, -, hne⟩ | ⟨hw, rfl, -⟩ | ⟨hw, hq, rfl⟩ | ⟨value, queue, hw, hq, rfl⟩ |
    ⟨value, disk, hw, -, rfl⟩ | ⟨hw, rfl⟩ | ⟨-, rfl⟩
  · refine ⟨?_, hi.count, hi.small, fun _ => hne⟩
    simpa only [inHand, hw] using hfifo
  · refine ⟨?_, hi.count, hi.small, fun hp => absurd hp (not_pastTest (Or.inr (Or.inr rfl)))⟩
    simpa only [inHand, hw] using hfifo
  · refine ⟨?_, hi.count, hi.small, fun hp => absurd hp (not_pastTest (Or.inr (Or.inl rfl)))⟩
    simpa only [inHand, hw] using hfifo
  · refine ⟨?_, hi.count, hi.small, fun _ => hi.busy (Or.inl hw)⟩
    simpa only [inHand, hw, hq, List.append_nil, List.append_assoc, List.singleton_append] using hfifo
  · refine ⟨?_, ?_, hi.small, fun hp => absurd hp (not_pastTest (Or.inl rfl))⟩
    · simpa only [inHand, hw, List.append_nil] using hfifo
    · simp only [hi.count, List.length_append, List.length_singleton]
      omega
  · refine ⟨?_, hi.count, hi.small, fun hp => absurd hp (not_pastTest (Or.inl rfl))⟩
    simpa only [inHand, hw] using hfifo
  · exact hi

theorem fileWriter_numPieces {stop : Bool} (h : s.fileWriter stop = .ok t) : t.numPieces = s.numPieces := by
  rcases fileWriter_cases h with ⟨-, rfl, -⟩ | ⟨-, rfl, -⟩ | ⟨-, -, rfl⟩ | ⟨_, _, -, -, rfl⟩ | ⟨_, _, -, -, rfl⟩ |
    ⟨-, rfl⟩ | ⟨-, rfl⟩ <;> rfl

end FileManager

/-! ## Runs -/

namespace Session

variable {s₀ s t u : Session} {ops : List Op} {o : Op} {fileSystem : FileSystem} {data : TorrentMetadata}

theorem init_eq_some : init fileSystem data = some s ↔
    FileManager.new fileSystem data = some s.fileManager ∧ s.stopDownload = false := by
  rw [init, Option.map_eq_some_iff]
  constructor
  · intro h
    obtain ⟨m, hm, rfl⟩ := h
    exact ⟨hm, rfl⟩
  · intro h
    exact ⟨s.fileManager, h.1, by rw [← h.2]⟩

theorem step_inv (h : s.fileManager.Inv) (hst : s.step o = .ok t) :
    t.fileManager.Inv ∧ t.fileManager.numPieces = s.fileManager.numPieces := by
  cases o with
  | savePiece fileOffset data =>
    cases hst
    exact ⟨FileManager.savePiece_inv h fileOffset data, rfl⟩
  | setStopDownload =>
    cases hst
    exact ⟨h, rfl⟩
  | writer =>
    obtain ⟨m, hm, ht⟩ := bind_eq_ok.1 hst
    cases ht
    exact ⟨FileManager.fileWriter_inv h hm, FileManager.fileWriter_numPieces hm⟩

/-- **First in, first out**: in every run, what was enqueued is what was written, in hand, and queued. -/
theorem run_inv (hnew : init fileSystem data = some s₀) (h : s₀.run ops = .ok s) :
    s.fileManager.Inv ∧ s.fileManager.numPieces = s₀.fileManager.numPieces := by
  refine runM_inv (P := fun _ => True)
    (I := fun v : Session => v.fileManager.Inv ∧ v.fileManager.numPieces = s₀.fileManager.numPieces)
    (fun v o w hi _ hst => ?_) ⟨FileManager.new_inv (init_eq_some.1 hnew).1, rfl⟩ (fun _ _ => trivial) h
  obtain ⟨hinv, hnum⟩ := step_inv hi.1 hst
  exact ⟨hinv, hnum.trans hi.2⟩

end Session

end SimpleTorrent
