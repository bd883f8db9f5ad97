/-
Which paths the file manager creates.

The constructor joins the name of a torrent and the entries of a path as they are: an entry may be absolute, be "..", or
have separators in it.

- `Contained`: every file lies strictly below the output path, and that below the working directory.
- `Confined`: the condition on the name and the entries.
- `contained_iff`: the files of an accepted torrent are contained exactly if its entries are confined.
- `climbs_out`: a torrent that is accepted, and whose file lies beside the output path.

Paths are compared by their names (`Paths.follow`): links are not followed, and a byte that ends a name for the system
does not end it here.
-/
import SimpleTorrent.Bencode.Reading
import SimpleTorrent.Core.Paths
import SimpleTorrent.Model.FileManager
import SimpleTorrent.Parser.Entries

namespace SimpleTorrent

open Checked Bencode Paths

/-! ## Paths as bytes -/

/-- "." -/
def dot : Bytes := [46]

/-- ".." -/
def dotDot : Bytes := [46, 46]

def isAbsolute (path : Bytes) : Prop := path.head? = some separator

/-- what the part of a path between two separators does -/
def component (name : Bytes) : Option (Step Bytes) :=
  if name = [] ∨ name = dot then none else if name = dotDot then some .up else some (.down name)

def steps (path : Bytes) : List (Step Bytes) := (path.splitOn separator).filterMap component

variable {lhs rhs path : Bytes} {paths : List Bytes}

@[simp] theorem steps_nil : steps [] = [] := rfl

/-- a separator ends a name -/
theorem steps_append_cons (lhs rhs : Bytes) : steps (lhs ++ separator :: rhs) = steps lhs ++ steps rhs := by
  rw [steps, List.splitOn_append_cons_self, List.filterMap_append]
  rfl

theorem steps_append_of_getLast? (h : lhs.getLast? = some separator) (rhs : Bytes) :
    steps (lhs ++ rhs) = steps lhs ++ steps rhs := by
  obtain ⟨init, rfl⟩ := List.getLast?_eq_some_iff.1 h
  calc steps (init ++ [separator] ++ rhs) = steps (init ++ separator :: rhs) := by
        rw [List.append_assoc, List.singleton_append]
    _ = steps init ++ steps rhs := steps_append_cons init rhs
    _ = steps (init ++ [separator]) ++ steps rhs := by rw [steps_append_cons init [], steps_nil, List.append_nil]

theorem steps_appendPath (h : ¬ isAbsolute rhs) : steps (appendPath lhs rhs) = steps lhs ++ steps rhs := by
  rw [isAbsolute] at h
  rw [appendPath, if_neg h]
  split_ifs with hlhs
  · rcases hlhs with hnil | hlast
    · rw [hnil, List.nil_append, steps_nil, List.nil_append]
    · exact steps_append_of_getLast? hlast rhs
  · exact steps_append_cons lhs rhs

theorem isAbsolute_appendPath : isAbsolute (appendPath lhs rhs) ↔ isAbsolute lhs ∨ isAbsolute rhs := by
  rw [appendPath]
  split_ifs with hrhs hlhs
  · exact iff_of_true hrhs (Or.inr hrhs)
  · cases lhs with
    | nil => exact iff_of_false hrhs (by simp [isAbsolute, hrhs])
    | cons b lhs => simp [isAbsolute, hrhs]
  · cases lhs with
    | nil => exact absurd (Or.inl rfl) hlhs
    | cons b lhs => simp [isAbsolute, hrhs]

theorem isAbsolute_foldl (path : Bytes) (paths : List Bytes) :
    isAbsolute (paths.foldl appendPath path) ↔ isAbsolute path ∨ ∃ entry ∈ paths, isAbsolute entry := by
  induction paths generalizing path with
  | nil => simp
  | cons entry paths ih => rw [List.foldl_cons, ih, isAbsolute_appendPath, List.exists_mem_cons_iff, or_assoc]

/-- relative entries are followed one behind the other -/
theorem steps_foldl (path : Bytes) (h : ∀ entry ∈ paths, ¬ isAbsolute entry) :
    steps (paths.foldl appendPath path) = steps path ++ paths.flatMap steps := by
  induction paths generalizing path with
  | nil => simp
  | cons entry paths ih =>
    rw [List.forall_mem_cons] at h
    calc steps ((entry :: paths).foldl appendPath path)
        = steps (appendPath path entry) ++ paths.flatMap steps := ih _ h.2
      _ = steps path ++ steps entry ++ paths.flatMap steps := by rw [steps_appendPath h.1]
      _ = steps path ++ (entry :: paths).flatMap steps := by rw [List.append_assoc, List.flatMap_cons]

theorem filePath_cons (name : Bytes) (paths : List Bytes) : filePath (name :: paths) = paths.foldl appendPath name := by
  have hname : appendPath [] name = name := by
    rw [appendPath]
    split_ifs with habs hnil
    · rfl
    · rfl
    · exact absurd (Or.inl rfl) hnil
  rw [filePath, List.foldl_cons, hname]

/-! ## Containment -/

/-- the output path does not leave the working directory, and every file that is opened lies strictly below it -/
structure Contained (data : TorrentMetadata) : Prop where
  outputPath : ¬ isAbsolute data.outputPath ∧ (follow (steps data.outputPath)).ups = 0
  files : ∀ path ∈ openedPaths data, ¬ isAbsolute path ∧ (follow (steps data.outputPath)).Inside (follow (steps path))

namespace Parser

/-- where the entries of a path lead -/
def File.place (file : File) : Place Bytes := follow (file.path.flatMap steps)

/-- the entries of a path are relative; where they climb, they come back through the same names, and end below them -/
structure File.Confined (root : Place Bytes) (file : File) : Prop where
  relative : ∀ entry ∈ file.path, ¬ isAbsolute entry
  below : file.place.ups ≤ root.names.length ∧
    root.names.drop (root.names.length - file.place.ups) <+: file.place.names ∧ file.place.ups < file.place.names.length

/-- there is a file, the name is relative and does not climb, and each path stays below it -/
structure Confined (root : Bytes) (files : List File) : Prop where
  nonempty : files ≠ []
  output : ¬ isAbsolute root ∧ (follow (steps root)).ups = 0
  files : ∀ file ∈ files, file.Confined (follow (steps root))

theorem File.confined_iff {root : Bytes} (hroot : ¬ isAbsolute root) (file : File) :
    ¬ isAbsolute (filePath (root :: file.path)) ∧
      (follow (steps root)).Inside (follow (steps (filePath (root :: file.path)))) ↔
    file.Confined (follow (steps root)) := by
  rw [filePath_cons, isAbsolute_foldl, not_or, and_iff_right hroot, not_exists]
  simp only [not_and]
  constructor
  · intro h
    obtain ⟨hrel, hinside⟩ := h
    rw [steps_foldl root hrel, follow_append, inside_andThen_iff] at hinside
    exact ⟨hrel, hinside⟩
  · intro h
    refine ⟨h.relative, ?_⟩
    rw [steps_foldl root h.relative, follow_append, inside_andThen_iff]
    exact h.below

theorem openedPaths_multi {data : TorrentMetadata} {name : Bytes} {files : List File} (hne : files ≠ [])
    (hfiles : data.files = (Content.multi files).files name) :
    openedPaths data = files.map fun file => filePath (name :: file.path) := by
  have hdata : ¬ data.files.isEmpty = true := by
    rw [hfiles, Content.files, List.isEmpty_iff, List.map_eq_nil_iff]
    exact hne
  rw [openedPaths, outputFiles, if_neg hdata, hfiles, Content.files, List.map_map]
  rfl

/-- without files, the output path itself is opened -/
theorem not_contained_of_nil {data : TorrentMetadata} (hfiles : data.files = []) : ¬ Contained data := by
  intro h
  have hopened : data.outputPath ∈ openedPaths data := by
    simp [openedPaths, outputFiles, hfiles, filePath_cons]
  exact not_inside_self _ (h.files _ hopened).2

theorem Entries.Gives.contained_iff_confined {e : Entries} {data : TorrentMetadata} (hg : e.Gives data) {files : List File}
    (hcontent : e.content = .multi files) : Contained data ↔ Confined e.name files := by
  have hfiles := hg.files
  rw [hcontent] at hfiles
  by_cases hnil : files = []
  · refine iff_of_false (not_contained_of_nil ?_) fun hc => hc.nonempty hnil
    rw [hfiles, hnil]
    rfl
  · have hopened := openedPaths_multi hnil hfiles
    constructor
    · intro hc
      have hroot := hc.outputPath
      rw [hg.outputPath] at hroot
      refine ⟨hnil, hroot, fun file hfile => ?_⟩
      have hmem : filePath (e.name :: file.path) ∈ openedPaths data := by
        rw [hopened]
        exact List.mem_map_of_mem hfile
      rw [← File.confined_iff hroot.1, ← hg.outputPath]
      rw [← hg.outputPath] at hmem
      exact hc.files _ hmem
    · intro hc
      have hroot := hc.output
      rw [← hg.outputPath] at hroot
      refine ⟨hroot, fun path hpath => ?_⟩
      rw [hopened, List.mem_map] at hpath
      obtain ⟨file, hfile, rfl⟩ := hpath
      rw [hg.outputPath, File.confined_iff hc.output.1]
      exact hc.files file hfile

/-- **When the files stay below the output path.** Those of an accepted torrent with a list of files do exactly if its
entries are confined. -/
theorem contained_iff (sha1 : Bytes → Bytes) (file : Bytes) (data : TorrentMetadata)
    (h : parseTorrentFile sha1 (some file) = .ok data) :
    ∃ torrent e, decode file = .ok torrent ∧ Entries.In torrent e ∧
      ∀ files, e.content = .multi files → (Contained data ↔ Confined e.name files) := by
  obtain ⟨torrent, hdecode, h⟩ := bind_eq_ok.1 h
  rw [mapError_eq_ok] at hdecode
  obtain ⟨e, hin, hg⟩ := readTorrent_entries h
  exact ⟨torrent, e, hdecode, hin, fun files hcontent => hg.contained_iff_confined hcontent⟩

/-- a torrent with one file of one byte, below the folder "a" -/
def oneFolder (path : List Bytes) : Bencode :=
  .dict [(announceKey, .string []), (infoKey, .dict [(filesKey, .list [.dict [(lengthKey, .integer 1),
    (pathKey, .list (path.map .string))]]), (nameKey, .string [97]), (pieceLengthKey, .integer 1),
    (piecesKey, .string (List.replicate 20 0))])]

/-- its path is "..", "b" -/
def climbing : Bencode := oneFolder [dotDot, [98]]

theorem sorted_climbing : Sorted climbing := by
  simp only [climbing, oneFolder, Sorted, SortedDict, SortedList, List.map_cons, List.map_nil, and_true, true_and]
  decide

theorem accepted_climbing : (spell climbing).Accepted := by
  simp only [climbing, oneFolder, spell, spellDict, spellList, spellInteger, List.map_cons, List.map_nil,
    Spelling.Accepted, Items.Accepted, Fields.Accepted, Chars.Accepted, and_true]
  decide

theorem decode_climbing : decode (encode climbing) = .ok climbing := by
  rw [← List.append_nil (encode climbing)]
  exact decode_encode sorted_climbing accepted_climbing []

theorem contained_iff_climbing : ∃ data, parseTorrentFile id (some (encode climbing)) = .ok data ∧
    ∃ torrent e, decode (encode climbing) = .ok torrent ∧ Entries.In torrent e ∧
      ∀ files, e.content = .multi files → (Contained data ↔ Confined e.name files) := by
  obtain ⟨data, hdata⟩ : ∃ data, parseTorrentFile id (some (encode climbing)) = .ok data := by
    rw [parseTorrentFile, decode_climbing]
    exact ⟨_, rfl⟩
  exact ⟨data, hdata, contained_iff id _ data hdata⟩

/-- **Out of the folder.** The file "b" beside the folder is opened. -/
theorem climbs_out : ∃ data, parseTorrentFile id (some (encode climbing)) = .ok data ∧
    openedPaths data = [[97, 47, 46, 46, 47, 98]] ∧ follow (steps [97, 47, 46, 46, 47, 98]) = ⟨0, [[98]]⟩ ∧
    ¬ Contained data := by
  rw [parseTorrentFile, decode_climbing]
  refine ⟨_, rfl, rfl, by decide, fun hc => ?_⟩
  have hinside := (hc.files _ List.mem_cons_self).2.2.2
  exact absurd hinside (by decide)

end Parser

end SimpleTorrent
