/-
From the loops of the file manager to files laid end to end.

The full lengths of the files are `file_lengths_`, position `g` is byte `g` of the torrent, and an entry of the queue is
a write at its offset.

- `findFile_spec`, `splitOverFiles_spec`: the two loops of `calculate_files_write_info`, and the loop over their result.
- `writeValue_spec`: an entry that lies within the torrent is written as `writeNamed` says, without a fault.
- `createAndOpenFiles_spec`: every path is opened, and every file that is opened is empty. `new_eq_none`: the
  constructor throws exactly if some path cannot be opened.
- `run_onDisk`: in every run that enqueues such entries only, no step faults, and the disk is what the written entries
  make of empty files. `OnDisk.files`: where no two files are one, each of them is.
-/
import SimpleTorrent.Disk.Queue

namespace SimpleTorrent

open Checked Splice Extents

/-! ## One entry -/

/-- an offset inside the torrent falls in a file, and inside it -/
theorem findFile_spec {lens : List ℕ} {off : ℕ} (h : off < lens.sum) (cur : ℕ) :
    ∃ k o len rest, findFile lens cur off = .ok (cur + k, o) ∧ lens.drop k = len :: rest ∧ o < len ∧
      (lens.take k).sum + o = off := by
  induction lens generalizing cur off with
  | nil => exact absurd h (Nat.not_lt_zero off)
  | cons len lens ih =>
    rw [List.sum_cons] at h
    by_cases hlen : len ≤ off
    · have hoff : off - len < lens.sum := by omega
      obtain ⟨k, o, len', rest, hfind, hdrop, ho, hsum⟩ := ih hoff (cur + 1)
      refine ⟨k + 1, o, len', rest, ?_, hdrop, ho, ?_⟩
      · rw [findFile, if_pos hlen, hfind, Nat.add_assoc, Nat.add_comm 1 k]
      · rw [List.take_succ_cons, List.sum_cons]
        omega
    · exact ⟨0, off, len, lens, by rw [findFile, if_neg hlen, Nat.add_zero], rfl, Nat.not_le.1 hlen, by simp⟩

/-- one turn of the second loop -/
theorem splitOverFiles_cons {remaining : ℕ} (h : remaining ≠ 0) (len : ℕ) (lens : List ℕ) (cur off : ℕ) :
    splitOverFiles (len :: lens) cur off remaining =
      splitOverFiles lens (cur + 1) 0 (remaining - min remaining (len - off)) >>= fun writeInfo =>
        .ok ((cur, off, min remaining (len - off)) :: writeInfo) := by
  rw [splitOverFiles, if_neg h]
  rfl

/-- one turn of the loop that writes -/
theorem writeSegments_cons {openFiles : List Bytes} {data : Bytes} {i off n c : ℕ} {file : Bytes}
    (hfile : openFiles[i]? = some file) (hc : c + n ≤ data.length) (writeInfo : List WriteInfo) (disk : Disk) :
    writeSegments openFiles data ((i, off, n) :: writeInfo) c disk =
      writeSegments openFiles data writeInfo (c + n) (writeFile 0 disk file off ((data.drop c).take n)) := by
  rw [writeSegments, vecIdx_eq_ok.2 hfile, ok_bind, if_neg (Nat.not_lt.2 hc)]

/-- what the second loop plans and the writer does, from file number `pre.length` and byte `c` of the data on -/
theorem splitOverFiles_spec (data : Bytes) (lens : List ℕ) (pre files : List Bytes) (disk : Disk) (off c : ℕ)
    (hfiles : files.length = lens.length) (hoff : ∀ len ∈ lens.head?, off = 0 ∨ off < len)
    (hsum : off + (data.length - c) ≤ lens.sum) :
    ∃ writeInfo, splitOverFiles lens pre.length off (data.length - c) = .ok writeInfo ∧
      writeSegments (pre ++ files) data writeInfo c disk = .ok (writeNamed 0 lens files disk off (data.drop c)) := by
  induction lens generalizing pre files disk off c with
  | nil =>
    rw [List.sum_nil] at hsum
    have hdone : data.length - c = 0 := by omega
    exact ⟨[], by rw [splitOverFiles, if_pos hdone], by rw [writeSegments, writeNamed]; simp⟩
  | cons len lens ih =>
    cases files with
    | nil => cases hfiles
    | cons file files =>
      by_cases hdone : data.length - c = 0
      · -- nothing left to write
        have hnil : data.drop c = [] := List.drop_eq_nil_of_le (by omega)
        exact ⟨[], by rw [splitOverFiles, if_pos hdone], by rw [writeSegments, hnil, writeNamed_nil]⟩
      · rw [List.sum_cons] at hsum
        have hoff' : off = 0 ∨ off < len := hoff len rfl
        have hcons := writeNamed_cons (0 : UInt8) hoff' lens file files disk (data.drop c)
        rw [List.length_drop, List.drop_drop] at hcons
        generalize hn : min (data.length - c) (len - off) = n at hcons
        -- the rest of the data goes to the files after this one
        obtain ⟨writeInfo, hsplit, hwrite⟩ := ih (pre ++ [file]) files
          (writeFile 0 disk file off ((data.drop c).take n)) 0 (c + n) (Nat.succ.inj hfiles) (fun _ _ => Or.inl rfl)
          (by omega)
        rw [List.length_append, List.length_singleton, ← Nat.sub_sub] at hsplit
        rw [List.append_assoc, List.singleton_append] at hwrite
        refine ⟨(pre.length, off, n) :: writeInfo, ?_, ?_⟩
        · rw [splitOverFiles_cons hdone, hn, hsplit]
          rfl
        · have hat : (pre ++ file :: files)[pre.length]? = some file := by simp
          rw [writeSegments_cons hat (by omega), hwrite, hcons]

/-- the entry lies within files of these lengths -/
def InRange (lens : List ℕ) (value : ℕ × Bytes) : Prop := value.1 < lens.sum ∧ value.1 + value.2.length ≤ lens.sum

/-- every path of the torrent can be opened -/
def FileSystem.Opens (fileSystem : FileSystem) (data : TorrentMetadata) : Prop :=
  ∀ path ∈ openedPaths data, fileSystem.file path ≠ none

namespace FileManager

variable {s t : FileManager}

/-- **One entry**: without a fault, the writer writes it across the files. -/
theorem writeValue_spec {value : ℕ × Bytes} (hfiles : s.openFiles.length = s.fileLengths.length)
    (h : InRange s.fileLengths value) :
    s.writeValue value = .ok (writeNamed 0 s.fileLengths s.openFiles s.disk value.1 value.2) := by
  obtain ⟨hlt, hle⟩ := h
  obtain ⟨k, o, len, rest, hfind, hdrop, ho, hsum⟩ := findFile_spec hlt 0
  have hk : k < s.fileLengths.length := by
    by_contra hk
    rw [List.drop_eq_nil_of_le (Nat.not_lt.1 hk)] at hdrop
    cases hdrop
  have hne : s.openFiles.isEmpty = false := by
    rw [List.isEmpty_eq_false_iff]
    intro hnil
    rw [hnil] at hfiles
    exact absurd hk (by rw [← hfiles]; exact Nat.not_lt_zero k)
  have hpre : (s.openFiles.take k).length = k := by rw [List.length_take]; omega
  have hrest : (s.fileLengths.take k).sum + (s.fileLengths.drop k).sum = s.fileLengths.sum := by
    rw [← List.sum_append, List.take_append_drop]
  obtain ⟨writeInfo, hsplit, hwrite⟩ := splitOverFiles_spec value.2 (s.fileLengths.drop k) (s.openFiles.take k)
    (s.openFiles.drop k) s.disk o 0 (by simp [hfiles]) (by rw [hdrop]; rintro _ ⟨⟩; exact Or.inr ho) (by omega)
  rw [hpre, Nat.sub_zero] at hsplit
  rw [List.take_append_drop, List.drop_zero] at hwrite
  rw [writeValue, hne, calculateFilesWriteInfo, hfind, ok_bind]
  simp only [Nat.zero_add, Bool.false_eq_true, if_false, hsplit, ok_bind, hwrite]
  rw [← hsum, writeNamed_skip 0 hfiles hk.le]

/-! ## The constructor -/

/-- the files of the paths, all of them empty -/
theorem createAndOpenFiles_spec {fileSystem : FileSystem} {files : List FileMetadata} {disk disk' : Disk}
    {openFiles : List Bytes} (h : createAndOpenFiles fileSystem files disk = some (openFiles, disk')) :
    openFiles.map some = files.map (fun f => fileSystem.file (filePath f.paths)) ∧
      (∀ file ∈ openFiles, disk' file = []) ∧ ∀ file ∉ openFiles, disk' file = disk file := by
  induction files generalizing disk openFiles with
  | nil =>
    cases h
    exact ⟨rfl, by simp, fun _ _ => rfl⟩
  | cons f files ih =>
    obtain ⟨⟨file, disk₁⟩, hone, h⟩ := Option.bind_eq_some_iff.1 h
    obtain ⟨⟨rest, disk₂⟩, hrest, h⟩ := Option.bind_eq_some_iff.1 h
    cases h
    obtain ⟨file', hfile, heq⟩ := Option.map_eq_some_iff.1 hone
    obtain ⟨rfl, rfl⟩ := Prod.mk.inj heq
    obtain ⟨hpaths, hempty, hothers⟩ := ih hrest
    refine ⟨by rw [List.map_cons, List.map_cons, hpaths, hfile], fun other hother => ?_, fun other hother => ?_⟩
    · by_cases hmem : other ∈ rest
      · exact hempty other hmem
      · -- it was opened first
        obtain rfl : other = file' := (List.mem_cons.1 hother).resolve_right hmem
        rw [hothers other hmem, Function.update_self]
        rfl
    · rw [List.mem_cons, not_or] at hother
      rw [hothers other hother.2, Function.update_of_ne hother.1]

/-- some path cannot be opened -/
theorem createAndOpenFiles_eq_none {fileSystem : FileSystem} {files : List FileMetadata} {disk : Disk} :
    createAndOpenFiles fileSystem files disk = none ↔ ∃ f ∈ files, fileSystem.file (filePath f.paths) = none := by
  induction files generalizing disk with
  | nil => simp [createAndOpenFiles]
  | cons f files ih =>
    rw [List.exists_mem_cons_iff]
    cases hfile : fileSystem.file (filePath f.paths) with
    | none => simp [createAndOpenFiles, createAndOpenFile, hfile]
    | some file =>
      simp only [createAndOpenFiles, createAndOpenFile, hfile, Option.map_some, Option.bind_eq_bind, Option.bind_some,
        Option.bind_eq_none_iff, Option.pure_def, reduceCtorEq, imp_false, false_or]
      rw [← @ih (Function.update disk file (openForOutput (resize (openForOutput (disk file)) f.fileLength 0))),
        Option.eq_none_iff_forall_ne_some]

/-- **The constructor throws** exactly if some path cannot be opened. -/
theorem new_eq_none {fileSystem : FileSystem} {data : TorrentMetadata} :
    new fileSystem data = none ↔ ¬ fileSystem.Opens data := by
  have hopens : ¬ fileSystem.Opens data ↔ createAndOpenFiles fileSystem (outputFiles data) fileSystem.disk = none := by
    rw [createAndOpenFiles_eq_none]
    simp [FileSystem.Opens, openedPaths]
  rw [hopens, new]
  cases createAndOpenFiles fileSystem (outputFiles data) fileSystem.disk <;> simp

/-! ## Runs -/

/-- the disk is what the written entries make of empty files, and all entries are in range -/
structure OnDisk (s : FileManager) : Prop where
  queue : s.Inv
  length : s.openFiles.length = s.fileLengths.length
  disk : ∃ disk, (∀ file ∈ s.openFiles, disk file = []) ∧
    s.disk = writeAllNamed 0 s.fileLengths s.openFiles disk s.written
  inRange : ∀ value ∈ s.enqueued, InRange s.fileLengths value

theorem new_openFiles {fileSystem : FileSystem} {data : TorrentMetadata} (h : new fileSystem data = some s) :
    s.openFiles.map some = (openedPaths data).map fileSystem.file ∧
      s.fileLengths = (outputFiles data).map (·.fileLength) := by
  obtain ⟨openFiles, disk, hfiles, rfl⟩ := new_eq_some.1 h
  refine ⟨?_, rfl⟩
  rw [openedPaths, List.map_map]
  exact (createAndOpenFiles_spec hfiles).1

theorem new_onDisk {fileSystem : FileSystem} {data : TorrentMetadata} (h : new fileSystem data = some s) :
    s.OnDisk := by
  have hinv := new_inv h
  obtain ⟨openFiles, disk, hfiles, rfl⟩ := new_eq_some.1 h
  obtain ⟨hpaths, hempty, -⟩ := createAndOpenFiles_spec hfiles
  have hlen := congrArg List.length hpaths
  rw [List.length_map, List.length_map] at hlen
  exact ⟨hinv, hlen.trans (List.length_map _).symm, ⟨disk, hempty, rfl⟩, fun value hv => by cases hv⟩

/-- where no two files are one, each holds what was written to it -/
theorem OnDisk.files (h : s.OnDisk) (hsep : Separate s.fileLengths s.openFiles) :
    s.files = writeAll 0 s.fileLengths (s.fileLengths.map fun _ => []) s.written := by
  obtain ⟨disk, hempty, hdisk⟩ := h.disk
  have hstart : s.openFiles.map disk = s.fileLengths.map fun _ => [] := by
    rw [List.map_congr_left hempty, List.map_const', List.map_const', h.length]
  rw [FileManager.files, hdisk, map_writeAllNamed 0 h.length hsep, hstart]

theorem savePiece_onDisk (h : s.OnDisk) {fileOffset : ℕ} {data : Bytes}
    (hin : InRange s.fileLengths (fileOffset % 2 ^ 32, data)) : (s.savePiece fileOffset data).OnDisk := by
  refine ⟨savePiece_inv h.queue fileOffset data, h.length, h.disk, ?_⟩
  intro value hv
  rcases List.mem_append.1 hv with hv | hv
  · exact h.inRange value hv
  · rw [List.mem_singleton] at hv
    subst hv
    exact hin

/-- the streams, their full lengths and what was enqueued are as before -/
structure Frame (s t : FileManager) : Prop where
  openFiles : t.openFiles = s.openFiles
  fileLengths : t.fileLengths = s.fileLengths
  enqueued : t.enqueued = s.enqueued

/-- a step that writes nothing -/
theorem fileWriter_idle (stop : Bool) (hw : ∀ value, s.writer ≠ .write value) :
    ∃ t, s.fileWriter stop = .ok t ∧ t.disk = s.disk ∧ t.written = s.written ∧ Frame s t := by
  unfold fileWriter
  cases hs : s.writer with
  | write value => exact absurd hs (hw value)
  | test =>
    simp only
    split
    · exact ⟨_, rfl, rfl, rfl, rfl, rfl, rfl⟩
    · exact ⟨_, rfl, rfl, rfl, rfl, rfl, rfl⟩
  | dequeue =>
    simp only
    split
    · exact ⟨_, rfl, rfl, rfl, rfl, rfl, rfl⟩
    · exact ⟨_, rfl, rfl, rfl, rfl, rfl, rfl⟩
  | sleep => exact ⟨_, rfl, rfl, rfl, rfl, rfl, rfl⟩
  | exited => exact ⟨_, rfl, rfl, rfl, rfl, rfl, rfl⟩

/-- a step that writes an entry -/
theorem fileWriter_write (stop : Bool) {value : ℕ × Bytes} (hw : s.writer = .write value)
    (hfiles : s.openFiles.length = s.fileLengths.length) (hin : InRange s.fileLengths value) :
    ∃ t, s.fileWriter stop = .ok t ∧ t.disk = writeNamed 0 s.fileLengths s.openFiles s.disk value.1 value.2 ∧
      t.written = s.written ++ [value] ∧ Frame s t := by
  rw [fileWriter, hw]
  simp only [writeValue_spec hfiles hin, ok_bind, pure_eq_ok]
  exact ⟨_, rfl, rfl, rfl, rfl, rfl, rfl⟩

theorem OnDisk.step (h : s.OnDisk) (hinv : t.Inv) (hframe : Frame s t)
    (hdisk : ∀ disk, s.disk = writeAllNamed 0 s.fileLengths s.openFiles disk s.written →
      t.disk = writeAllNamed 0 s.fileLengths s.openFiles disk t.written) : t.OnDisk := by
  obtain ⟨disk, hempty, hs⟩ := h.disk
  refine ⟨hinv, ?_, ⟨disk, ?_, ?_⟩, ?_⟩
  · rw [hframe.openFiles, hframe.fileLengths, h.length]
  · rwa [hframe.openFiles]
  · rw [hframe.openFiles, hframe.fileLengths, hdisk disk hs]
  · rw [hframe.fileLengths, hframe.enqueued]
    exact h.inRange

/-- **The writer never faults** on entries in range, and keeps the files right. -/
theorem fileWriter_onDisk (h : s.OnDisk) (stop : Bool) : ∃ t, s.fileWriter stop = .ok t ∧ t.OnDisk ∧ Frame s t := by
  by_cases hw : ∃ value, s.writer = .write value
  · obtain ⟨value, hw⟩ := hw
    have hmem : value ∈ s.enqueued := by
      rw [h.queue.fifo, inHand, hw]
      simp
    obtain ⟨t, ht, hdisk, hwritten, hframe⟩ := fileWriter_write stop hw h.length (h.inRange value hmem)
    refine ⟨t, ht, h.step (fileWriter_inv h.queue ht) hframe fun disk hs => ?_, hframe⟩
    rw [hdisk, hwritten, writeAllNamed_snoc, ← hs]
  · obtain ⟨t, ht, hdisk, hwritten, hframe⟩ := fileWriter_idle stop (not_exists.1 hw)
    refine ⟨t, ht, h.step (fileWriter_inv h.queue ht) hframe fun disk hs => ?_, hframe⟩
    rw [hdisk, hwritten, hs]

end FileManager

namespace Session

/-- the entries that a run enqueues -/
def saves (ops : List Op) : List (ℕ × Bytes) := ops.filterMap fun
  | .savePiece fileOffset data => some (fileOffset % 2 ^ 32, data)
  | _ => none

/-- **Runs without faults.** A run that enqueues only entries in range goes through, and at its end the disk is what the
written entries make of it. -/
theorem run_onDisk {s : Session} (h : s.fileManager.OnDisk) (ops : List Op)
    (hops : ∀ value ∈ saves ops, InRange s.fileManager.fileLengths value) :
    ∃ t, s.run ops = .ok t ∧ t.fileManager.OnDisk ∧ t.fileManager.openFiles = s.fileManager.openFiles ∧
      t.fileManager.fileLengths = s.fileManager.fileLengths ∧
      t.fileManager.enqueued = s.fileManager.enqueued ++ saves ops := by
  induction ops generalizing s with
  | nil => exact ⟨s, rfl, h, rfl, rfl, (List.append_nil _).symm⟩
  | cons o ops ih =>
    obtain ⟨t, ht, htd, hfiles, hlens, henq⟩ : ∃ t, s.step o = .ok t ∧ t.fileManager.OnDisk ∧
        t.fileManager.openFiles = s.fileManager.openFiles ∧
        t.fileManager.fileLengths = s.fileManager.fileLengths ∧
        t.fileManager.enqueued = s.fileManager.enqueued ++ saves [o] := by
      cases o with
      | savePiece fileOffset data =>
        exact ⟨_, rfl, FileManager.savePiece_onDisk h (hops _ List.mem_cons_self), rfl, rfl, rfl⟩
      | setStopDownload => exact ⟨_, rfl, h, rfl, rfl, (List.append_nil _).symm⟩
      | writer =>
        obtain ⟨m, hm, hmd, hframe⟩ := FileManager.fileWriter_onDisk h s.stopDownload
        exact ⟨⟨m, s.stopDownload⟩, by rw [step, hm]; rfl, hmd, hframe.openFiles, hframe.fileLengths,
          hframe.enqueued.trans (List.append_nil _).symm⟩
    have hsaves : saves (o :: ops) = saves [o] ++ saves ops := List.filterMap_append (l := [o])
    rw [hsaves] at hops
    obtain ⟨u, hu, hud, hfiles', hlens', henq'⟩ :=
      ih htd fun value hv => hlens ▸ hops value (List.mem_append_right _ hv)
    refine ⟨u, ?_, hud, hfiles'.trans hfiles, hlens'.trans hlens, ?_⟩
    · rw [run, runM_cons, ht]
      exact hu
    · rw [henq', henq, hsaves, List.append_assoc]

end Session

end SimpleTorrent
