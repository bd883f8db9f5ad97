/-
What the piece manager hands to the file manager.

- `saves_saveCalls`: the calls of `save_piece` between two states make the new entries of the queue.
- `savedData`: the bytes that were saved for each piece. `savedEntries_eq`: the entries are those pieces, in the order
  in which they were saved.
- `saved_fit`, `saved_verified`: the pieces have the right lengths, and those that were saved the right hashes.
-/
import SimpleTorrent.Model.Client
import SimpleTorrent.Properties.Assembly
import SimpleTorrent.Properties.Coherence

namespace SimpleTorrent

open Checked Store

/-- the entry of the queue that a `save_piece` makes -/
def savedEntry : Event ℕ → Option (ℕ × Bytes)
  | .savePiece _ fileOffset data => some (fileOffset % 2 ^ 32, data)
  | _ => none

def savedEntries (trace : List (Event ℕ)) : List (ℕ × Bytes) := trace.filterMap savedEntry

/-- the bytes of piece `x`, if the event saves it -/
def savedBytes (x : ℕ) : Event ℕ → Option Bytes
  | .savePiece y _ data => if y = x then some data else none
  | _ => none

/-- what was saved for piece `x`; zeros if nothing was -/
def savedData (data : TorrentMetadata) (trace : List (Event ℕ)) (x : ℕ) : Bytes :=
  (trace.findSome? (savedBytes x)).getD (List.replicate (currentPieceLength data x) 0)

variable {trace : List (Event ℕ)} {x off : ℕ} {d : Bytes}

theorem savedBytes_eq_some {e : Event ℕ} : savedBytes x e = some d ↔ ∃ off, e = .savePiece x off d := by
  cases e with
  | savePiece y off data =>
    simp only [savedBytes]
    split_ifs with hxy
    · simp [hxy]
    · simp [hxy]
  | _ => simp [savedBytes]

theorem savedPieces_cons (e : Event ℕ) (trace : List (Event ℕ)) :
    savedPieces (e :: trace) = savedPieces [e] ++ savedPieces trace := savedPieces_append [e] trace

theorem findSome?_savedBytes (hnodup : (savedPieces trace).Nodup) (h : .savePiece x off d ∈ trace) :
    trace.findSome? (savedBytes x) = some d := by
  induction trace with
  | nil => cases h
  | cons e trace ih =>
    rw [savedPieces_cons, List.nodup_append] at hnodup
    rw [List.findSome?_cons]
    cases hb : savedBytes x e with
    | none =>
      rcases List.mem_cons.1 h with rfl | h
      · simp [savedBytes] at hb
      · exact ih hnodup.2.1 h
    | some d' =>
      obtain ⟨off', rfl⟩ := savedBytes_eq_some.1 hb
      rcases List.mem_cons.1 h with heq | h
      · cases heq
        rfl
      · -- a piece is saved once
        have hmem : x ∈ savedPieces trace := mem_savedPieces.2 ⟨off, d, h⟩
        exact absurd rfl (hnodup.2.2 x (by simp [savedPieces]) x hmem)

theorem savedData_of_mem (data : TorrentMetadata) (hnodup : (savedPieces trace).Nodup) (h : .savePiece x off d ∈ trace) :
    savedData data trace x = d := by
  rw [savedData, findSome?_savedBytes hnodup h]
  rfl

theorem savedEntries_append (a b : List (Event ℕ)) : savedEntries (a ++ b) = savedEntries a ++ savedEntries b :=
  List.filterMap_append

/-- the calls of `save_piece` make the new entries -/
theorem saves_saveCalls {s t : PieceManager} (h : s.trace <+: t.trace) :
    savedEntries t.trace = savedEntries s.trace ++ Session.saves (Client.saveCalls s t) := by
  obtain ⟨l, hl⟩ := h
  rw [← hl, savedEntries_append, Client.saveCalls, ← hl, List.drop_left, Session.saves, List.filterMap_filterMap]
  congr 1
  rw [savedEntries]
  congr 1
  funext e
  cases e with
  | _ => rfl

/-! ## The pieces -/

namespace PieceManager

variable {c : Config} {sha1 : Bytes → Bytes} {s : PieceManager}

/-- a piece that was saved is a piece of the torrent -/
theorem Inv.lt_of_saved (h : s.Inv c sha1) (hx : x ∈ savedPieces s.trace) : x < c.data.pieceHashes.length := by
  obtain ⟨m, hm, -⟩ := state_toStore ((h.good.saves.completed x).2 hx)
  have hlt := (List.getElem?_eq_some_iff.1 hm).1
  rwa [h.shape.size] at hlt

theorem Inv.saved_verified (h : s.Inv c sha1) (hx : x ∈ savedPieces s.trace) :
    (savedData c.data s.trace x).length = currentPieceLength c.data x ∧
      some (sha1 (savedData c.data s.trace x)) = c.data.pieceHashes[x]? := by
  obtain ⟨off, d, hd⟩ := mem_savedPieces.1 hx
  obtain ⟨-, hlen, hhash⟩ := h.good.saves.saved x off d hd
  obtain ⟨m, hm, -⟩ := state_toStore ((h.good.saves.completed x).2 hx)
  have hdata : savedData c.data s.trace x = d := savedData_of_mem c.data h.good.saves.nodup hd
  rw [hdata]
  refine ⟨hlen, ?_⟩
  rw [hhash, ← (h.shape.piece x m hm).1]
  exact h.pieceHash hm

/-- **All pieces have the right lengths** -/
theorem Inv.saved_fit (h : s.Inv c sha1) : PiecesFit c.data (savedData c.data s.trace) := by
  intro x _
  cases hb : s.trace.findSome? (savedBytes x) with
  | none =>
    rw [savedData, hb]
    exact List.length_replicate
  | some d =>
    obtain ⟨e, he, hed⟩ := List.exists_of_findSome?_eq_some hb
    obtain ⟨off, rfl⟩ := savedBytes_eq_some.1 hed
    exact (h.saved_verified (mem_savedPieces.2 ⟨off, d, he⟩)).1

/-- **The entries of the queue** are the pieces that were saved. -/
theorem Inv.savedEntries_eq (h : s.Inv c sha1) :
    savedEntries s.trace = (savedPieces s.trace).map (pieceEntry c.data (savedData c.data s.trace)) := by
  rw [savedEntries, savedPieces, List.map_filterMap]
  apply List.filterMap_congr
  intro e he
  cases e with
  | savePiece x off d =>
    obtain ⟨hoff, -, -⟩ := h.good.saves.saved x off d he
    have hmod : off % 2 ^ 32 = x * c.data.pieceLength % 2 ^ 32 := by
      rw [hoff]
      exact Nat.mod_mod_of_dvd _ (by decide : 2 ^ 32 ∣ 2 ^ 64)
    have hdata : savedData c.data s.trace x = d := savedData_of_mem c.data h.good.saves.nodup he
    simp only [savedEntry, Option.map_some, pieceEntry, hmod, hdata]
  | _ => rfl

theorem Inv.savedEntries_inRange (h : s.Inv c sha1) (hc : c.data.Consistent) :
    ∀ value ∈ savedEntries s.trace, InRange ((outputFiles c.data).map (·.fileLength)) value := by
  intro value hv
  rw [h.savedEntries_eq, List.mem_map] at hv
  obtain ⟨x, hx, rfl⟩ := hv
  exact pieceEntry_inRange hc h.saved_fit (h.lt_of_saved hx)

end PieceManager

end SimpleTorrent
