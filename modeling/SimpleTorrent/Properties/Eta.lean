/-
The estimated time of arrival of the progress display.

The guard of the division tests the speed, in KB/s; the divisor is the speed in whole bytes per second, which is zero
for a positive speed once the seconds outnumber the bytes. And the bytes of the completed pieces are counted at full
length, so that with a short last piece they exceed the total in the end.

- `Consistent`: the counters of a torrent in download; `run_consistent`: every run of the piece manager keeps them so.
- `EtaExact`: the estimate exists, and is what remains over the whole bytes per second. `eta_iff`: when it is exact.
- `stalled_fault`: a download so slow that the division faults; `drawProgress_fault_iff`: when it does.
- `complete_wraps`: a complete download with a short last piece.
- `drawProgress_eq_noEta_iff`: when the display shows a dash.
-/
import Mathlib.Algebra.Order.Floor.Semifield
import SimpleTorrent.Model.Statistics
import SimpleTorrent.Properties.Assembly
import SimpleTorrent.Properties.Coherence

namespace SimpleTorrent

open Checked

namespace Statistics

variable {s : Statistics} {elapsedTime : ℤ}

/-! ## Arithmetic -/

/-- the bytes of the completed pieces, each counted at full length -/
def completedBytes (s : Statistics) : ℕ := s.pieceLength.toNat * s.completedPieces.toNat

theorem completedBytes_lt (s : Statistics) : s.completedBytes < 2 ^ 64 :=
  calc s.completedBytes < 2 ^ 32 * 2 ^ 32 := Nat.mul_lt_mul'' s.pieceLength.toNat_lt s.completedPieces.toNat_lt
    _ = 2 ^ 64 := by norm_num

@[simp] theorem toNat_totalBytesDownloaded (s : Statistics) : s.totalBytesDownloaded.toNat = s.completedBytes := by
  rw [totalBytesDownloaded, UInt64.toNat_mul, UInt32.toNat_toUInt64, UInt32.toNat_toUInt64]
  exact Nat.mod_eq_of_lt s.completedBytes_lt

theorem downloadSpeed_eq (h : 0 < elapsedTime) :
    s.downloadSpeed elapsedTime = (s.completedBytes / 1024 : ℕ) / elapsedTime := by
  rw [downloadSpeed, if_pos h, UInt64.toNat_div, toNat_totalBytesDownloaded]
  rfl

theorem downloadSpeed_pos_iff : 0 < s.downloadSpeed elapsedTime ↔ 0 < elapsedTime ∧ 1024 ≤ s.completedBytes := by
  by_cases he : 0 < elapsedTime
  · have hq : (0 : ℚ) < elapsedTime := Int.cast_pos.2 he
    rw [downloadSpeed_eq he, div_pos_iff_of_pos_right hq, Nat.cast_pos, Nat.div_pos_iff]
    simp [he]
  · simp [downloadSpeed, he]

/-- the speed in bytes per second, without the fraction -/
theorem floor_downloadSpeed (h : 0 < elapsedTime) :
    ⌊s.downloadSpeed elapsedTime * 1024⌋₊ = s.completedBytes / 1024 * 1024 / elapsedTime.toNat := by
  have hcast : (elapsedTime : ℚ) = (elapsedTime.toNat : ℕ) := by
    rw [← Int.cast_natCast, Int.toNat_of_nonneg h.le]
  have hprod : s.downloadSpeed elapsedTime * 1024 =
      ((s.completedBytes / 1024 * 1024 : ℕ) : ℚ) / (elapsedTime.toNat : ℕ) := by
    rw [downloadSpeed_eq h, hcast, div_mul_eq_mul_div, Nat.cast_mul, Nat.cast_ofNat]
  rw [hprod, Nat.floor_div_eq_div]

theorem toNat_bytesPerSecond (h : 0 < elapsedTime) :
    (s.bytesPerSecond elapsedTime).toNat = ⌊s.downloadSpeed elapsedTime * 1024⌋₊ := by
  have hle : ⌊s.downloadSpeed elapsedTime * 1024⌋₊ ≤ s.completedBytes := by
    rw [floor_downloadSpeed h]
    exact (Nat.div_le_self _ _).trans (Nat.div_mul_le_self _ _)
  exact UInt64.toNat_ofNat_of_lt' (hle.trans_lt s.completedBytes_lt)

theorem bytesPerSecond_eq_zero_iff (h : 0 < elapsedTime) :
    s.bytesPerSecond elapsedTime = 0 ↔ 1024 * (s.completedBytes / 1024) < elapsedTime := by
  rw [← UInt64.toNat_inj, toNat_bytesPerSecond h, floor_downloadSpeed h, UInt64.toNat_zero, Nat.div_eq_zero_iff]
  omega

theorem toNat_remainingLength_of_le (h : s.completedBytes ≤ s.totalLength.toNat) :
    s.remainingLength.toNat = s.totalLength.toNat - s.completedBytes := by
  rw [remainingLength, UInt64.toNat_sub_of_le _ _ (by rwa [UInt64.le_iff_toNat_le, toNat_totalBytesDownloaded]),
    toNat_totalBytesDownloaded]

/-- the subtraction wraps around -/
theorem toNat_remainingLength_of_lt (h : s.totalLength.toNat < s.completedBytes) :
    s.remainingLength.toNat = 2 ^ 64 - (s.completedBytes - s.totalLength.toNat) := by
  have hlt := s.completedBytes_lt
  rw [remainingLength, UInt64.toNat_sub, toNat_totalBytesDownloaded]
  omega

/-! ## The estimate -/

theorem etaSeconds_of_idle (h : ¬ 0 < s.downloadSpeed elapsedTime) : s.etaSeconds elapsedTime = .ok none := by
  rw [etaSeconds, if_neg h]

theorem etaSeconds_of_zero (h : 0 < s.downloadSpeed elapsedTime) (hz : s.bytesPerSecond elapsedTime = 0) :
    s.etaSeconds elapsedTime = .error .zeroModulus := by
  rw [etaSeconds, if_pos h, if_pos hz]

theorem etaSeconds_of_pos (h : 0 < s.downloadSpeed elapsedTime) (hz : s.bytesPerSecond elapsedTime ≠ 0) :
    s.etaSeconds elapsedTime = .ok (some (s.remainingLength / s.bytesPerSecond elapsedTime)) := by
  rw [etaSeconds, if_pos h, if_neg hz]

/-- the guard lets a zero divisor through -/
theorem etaSeconds_fault_iff (f : Fault) : s.etaSeconds elapsedTime = .error f ↔
    f = .zeroModulus ∧ 0 < elapsedTime ∧ 1024 ≤ s.completedBytes ∧
      1024 * (s.completedBytes / 1024) < elapsedTime := by
  by_cases hspeed : 0 < s.downloadSpeed elapsedTime
  · obtain ⟨he, hbytes⟩ := downloadSpeed_pos_iff.1 hspeed
    by_cases hz : s.bytesPerSecond elapsedTime = 0
    · have hlt := (bytesPerSecond_eq_zero_iff he).1 hz
      rw [etaSeconds_of_zero hspeed hz]
      simp [he, hbytes, hlt, eq_comm]
    · have hle := mt (bytesPerSecond_eq_zero_iff he).2 hz
      rw [etaSeconds_of_pos hspeed hz]
      simp [hle]
  · rw [etaSeconds_of_idle hspeed]
    rw [downloadSpeed_pos_iff] at hspeed
    simp only [reduceCtorEq, false_iff]
    intro h
    exact hspeed ⟨h.2.1, h.2.2.1⟩

/-! ## Consistent counters -/

/-- the counters of a torrent in download -/
structure Consistent (s : Statistics) : Prop where
  pieceLength_pos : 0 < s.pieceLength.toNat
  count : s.totalPieces.toNat = (s.totalLength.toNat + s.pieceLength.toNat - 1) / s.pieceLength.toNat
  completed_le : s.completedPieces.toNat ≤ s.totalPieces.toNat

namespace Consistent

/-- the pieces of full length cover the torrent -/
theorem totalLength_le (h : s.Consistent) : s.totalLength.toNat ≤ s.pieceLength.toNat * s.totalPieces.toNat := by
  have hpos := h.pieceLength_pos
  have hlt := Nat.lt_mul_div_succ (s.totalLength.toNat + s.pieceLength.toNat - 1) hpos
  rw [← h.count, Nat.mul_succ] at hlt
  omega

/-- all but one of the pieces of full length fit in the torrent -/
theorem mul_le_of_lt (h : s.Consistent) {n : ℕ} (hn : n < s.totalPieces.toNat) :
    s.pieceLength.toNat * n ≤ s.totalLength.toNat := by
  have hle : n + 1 ≤ (s.totalLength.toNat + s.pieceLength.toNat - 1) / s.pieceLength.toNat := h.count ▸ hn
  rw [Nat.le_div_iff_mul_le h.pieceLength_pos, Nat.succ_mul, Nat.mul_comm] at hle
  omega

/-- the last piece is whole exactly if the piece length divides the total -/
theorem mul_totalPieces_le_iff (h : s.Consistent) :
    s.pieceLength.toNat * s.totalPieces.toNat ≤ s.totalLength.toNat ↔ s.pieceLength.toNat ∣ s.totalLength.toNat := by
  constructor
  · intro hle
    exact ⟨s.totalPieces.toNat, Nat.le_antisymm h.totalLength_le hle⟩
  · rintro ⟨n, hn⟩
    have hpos := h.pieceLength_pos
    have hcount : s.totalPieces.toNat = n := by
      rw [h.count, hn, Nat.add_sub_assoc hpos, Nat.mul_add_div hpos, Nat.div_eq_of_lt (by omega), Nat.add_zero]
    rw [hcount, hn]

/-- what is counted as downloaded is not more than there is -/
theorem completedBytes_le_iff (h : s.Consistent) : s.completedBytes ≤ s.totalLength.toNat ↔
    s.completedPieces < s.totalPieces ∨ s.pieceLength.toNat ∣ s.totalLength.toNat := by
  rw [UInt32.lt_iff_toNat_lt]
  rcases h.completed_le.lt_or_eq with hlt | heq
  · simp only [hlt, true_or, iff_true]
    exact h.mul_le_of_lt hlt
  · rw [completedBytes, heq, h.mul_totalPieces_le_iff]
    simp

theorem completedBytes_complete (h : s.Consistent) (hall : s.completedPieces = s.totalPieces) :
    s.totalLength.toNat ≤ s.completedBytes := by
  rw [completedBytes, hall]
  exact h.totalLength_le

end Consistent

/-! ## When the estimate is exact -/

/-- what the estimate should be: what remains over the whole bytes per second -/
structure EtaExact (s : Statistics) (elapsedTime : ℤ) : Prop where
  noFault : ∃ eta, s.etaSeconds elapsedTime = .ok eta
  /-- where it is computed, the difference does not wrap around -/
  remaining : 0 < s.downloadSpeed elapsedTime →
    (s.remainingLength.toNat : ℤ) = s.totalLength.toNat - s.completedBytes ∧ s.remainingLength ≤ s.totalLength
  complete : 0 < s.downloadSpeed elapsedTime → s.completedPieces = s.totalPieces → s.remainingLength = 0
  seconds : ∀ t, s.etaSeconds elapsedTime = .ok (some t) →
    (t.toNat : ℤ) = (s.totalLength.toNat - s.completedBytes) / ⌊s.downloadSpeed elapsedTime * 1024⌋

/-- no speed, no estimate -/
theorem EtaExact.of_idle (h : ¬ 0 < s.downloadSpeed elapsedTime) : s.EtaExact elapsedTime where
  noFault := ⟨none, etaSeconds_of_idle h⟩
  remaining hspeed := absurd hspeed h
  complete hspeed := absurd hspeed h
  seconds t ht := by
    rw [etaSeconds_of_idle h] at ht
    cases ht

theorem EtaExact.of_pos (hs : s.Consistent) (hz : s.bytesPerSecond elapsedTime ≠ 0)
    (hspeed : 0 < s.downloadSpeed elapsedTime) (hle : s.completedBytes ≤ s.totalLength.toNat) :
    s.EtaExact elapsedTime where
  noFault := ⟨_, etaSeconds_of_pos hspeed hz⟩
  remaining _ := by
    rw [UInt64.le_iff_toNat_le, toNat_remainingLength_of_le hle]
    omega
  complete _ hall := by
    have hge := hs.completedBytes_complete hall
    rw [← UInt64.toNat_inj, toNat_remainingLength_of_le hle, UInt64.toNat_zero]
    omega
  seconds t ht := by
    have he := (downloadSpeed_pos_iff.1 hspeed).1
    rw [etaSeconds_of_pos hspeed hz] at ht
    cases ht
    rw [UInt64.toNat_div, toNat_remainingLength_of_le hle, toNat_bytesPerSecond he, Int.natCast_ediv, Nat.cast_sub hle,
      Int.natCast_floor_eq_floor (by positivity)]

/-- **When the estimate is exact.** Below one second or one kilobyte none is made. Else the seconds must not outnumber
the bytes, in whole kilobytes, and a piece must be missing if the last one is short. -/
theorem eta_iff (s : Statistics) (h : s.Consistent) (elapsedTime : ℤ) :
    s.EtaExact elapsedTime ↔ elapsedTime ≤ 0 ∨ s.pieceLength.toNat * s.completedPieces.toNat < 1024 ∨
      elapsedTime ≤ 1024 * (s.pieceLength.toNat * s.completedPieces.toNat / 1024 : ℕ) ∧
        (s.completedPieces < s.totalPieces ∨ s.pieceLength.toNat ∣ s.totalLength.toNat) := by
  rw [← h.completedBytes_le_iff]
  change _ ↔ elapsedTime ≤ 0 ∨ s.completedBytes < 1024 ∨ elapsedTime ≤ 1024 * (s.completedBytes / 1024 : ℕ) ∧ _
  by_cases hspeed : 0 < s.downloadSpeed elapsedTime
  · obtain ⟨he, hbytes⟩ := downloadSpeed_pos_iff.1 hspeed
    simp only [he.not_ge, hbytes.not_gt, false_or]
    constructor
    · intro hexact
      obtain ⟨eta, heta⟩ := hexact.noFault
      constructor
      · by_contra hlt
        rw [etaSeconds_of_zero hspeed ((bytesPerSecond_eq_zero_iff he).2 (not_le.1 hlt))] at heta
        cases heta
      · have := (hexact.remaining hspeed).1
        omega
    · rintro ⟨hdiv, hle⟩
      exact .of_pos h (mt (bytesPerSecond_eq_zero_iff he).1 hdiv.not_gt) hspeed hle
  · rw [iff_true_left (EtaExact.of_idle hspeed)]
    rw [downloadSpeed_pos_iff] at hspeed
    omega

/-- one of two pieces, the second of one byte -/
def underway : Statistics := ⟨2, 2048, 2049, 1⟩

theorem eta_iff_underway : underway.EtaExact 8 :=
  (eta_iff underway ⟨by decide, by decide, by decide⟩ 8).2 (.inr (.inr ⟨by decide, .inl (by decide)⟩))

/-- one of two pieces of 1 KiB -/
def stalled : Statistics := ⟨2, 1024, 2048, 1⟩

/-- after 1025 seconds the divisor is zero -/
theorem stalled_fault :
    stalled.Consistent ∧ stalled.etaSeconds 1025 = .error .zeroModulus ∧ ¬ stalled.EtaExact 1025 := by
  have hfault : stalled.etaSeconds 1025 = .error .zeroModulus :=
    (etaSeconds_fault_iff .zeroModulus).2 ⟨rfl, by decide, by decide, by decide⟩
  refine ⟨⟨by decide, by decide, by decide⟩, hfault, ?_⟩
  intro h
  obtain ⟨eta, heta⟩ := h.noFault
  rw [hfault] at heta
  cases heta

/-- **A complete torrent.** With a short last piece, what remains of it wraps around. -/
theorem complete_wraps (h : s.Consistent) (hall : s.completedPieces = s.totalPieces)
    (hshort : ¬ s.pieceLength.toNat ∣ s.totalLength.toNat) : s.totalLength < s.remainingLength := by
  have hlt : s.totalLength.toNat < s.completedBytes := by
    rw [← not_le, h.completedBytes_le_iff, hall]
    simp [hshort]
  have hbound := s.completedBytes_lt
  rw [UInt64.lt_iff_toNat_lt, toNat_remainingLength_of_lt hlt]
  omega

/-- two of two pieces, the second of one byte: 2^64 - 2047 bytes remain -/
example : (⟨2, 2048, 2049, 2⟩ : Statistics).remainingLength = 18446744073709549569 := by decide

/-! ## The text -/

/-- **When the display ends the process**: at every turn after as many seconds as there are bytes, in whole kilobytes. -/
theorem drawProgress_fault_iff (s : Statistics) (elapsedTime : ℤ) (f : Fault) :
    s.drawProgress elapsedTime = .error f ↔
      f = .zeroModulus ∧ 0 < elapsedTime ∧ 1024 ≤ s.completedBytes ∧ 1024 * (s.completedBytes / 1024) < elapsedTime := by
  rw [← etaSeconds_fault_iff, drawProgress]
  cases s.etaSeconds elapsedTime <;> simp

theorem formatDuration_long {t : UInt64} (h : 23 < toInt (t.toNat / 3600)) : formatDuration t = overOneDay := by
  simp only [formatDuration, if_pos h]

/-- below a day the text ends with the seconds -/
theorem formatDuration_short {t : UInt64} (h : ¬ 23 < toInt (t.toNat / 3600)) :
    ∃ text, formatDuration t = text ++ secondsUnit := by
  simp only [formatDuration, if_neg h, ← List.append_assoc]
  exact ⟨_, rfl⟩

/-- as long as the hours fit in an `int`, a day or more is shown as such -/
theorem formatDuration_eq_overOneDay_iff {t : UInt64} (ht : t.toNat < 3600 * 2 ^ 31) :
    formatDuration t = overOneDay ↔ 86400 ≤ t.toNat := by
  have hhours : toInt (t.toNat / 3600) = (t.toNat / 3600 : ℕ) := toInt_of_lt (by omega)
  by_cases h : 23 < toInt (t.toNat / 3600)
  · rw [formatDuration_long h]
    simp only [true_iff]
    omega
  · obtain ⟨text, htext⟩ := formatDuration_short h
    have hne : formatDuration t ≠ overOneDay := by
      intro heq
      have hlast := congrArg List.getLast? (htext.symm.trans heq)
      simp [secondsUnit, overOneDay] at hlast
    simp only [hne, false_iff]
    omega

/-- no duration is shown as the dash -/
theorem formatDuration_ne_noEta (t : UInt64) : formatDuration t ≠ noEta := by
  intro heq
  by_cases h : 23 < toInt (t.toNat / 3600)
  · rw [formatDuration_long h] at heq
    cases heq
  · obtain ⟨text, htext⟩ := formatDuration_short h
    have hlast := congrArg List.getLast? (htext.symm.trans heq)
    simp [secondsUnit, noEta] at hlast

/-- **The dash** stands for no estimate, and only for that. -/
theorem drawProgress_eq_noEta_iff (s : Statistics) (elapsedTime : ℤ) :
    s.drawProgress elapsedTime = .ok noEta ↔ elapsedTime ≤ 0 ∨ s.completedBytes < 1024 := by
  by_cases hspeed : 0 < s.downloadSpeed elapsedTime
  · obtain ⟨he, hbytes⟩ := downloadSpeed_pos_iff.1 hspeed
    have hne : s.drawProgress elapsedTime ≠ .ok noEta := by
      by_cases hz : s.bytesPerSecond elapsedTime = 0
      · rw [drawProgress, etaSeconds_of_zero hspeed hz, error_bind]
        simp
      · rw [drawProgress, etaSeconds_of_pos hspeed hz, ok_bind, Option.map_some, Option.getD_some, pure_eq_ok, ne_eq,
          Except.ok.injEq]
        exact formatDuration_ne_noEta _
    simp only [hne, false_iff]
    omega
  · have hdash : s.drawProgress elapsedTime = .ok noEta := by
      rw [drawProgress, etaSeconds_of_idle hspeed]
      rfl
    rw [downloadSpeed_pos_iff] at hspeed
    simp only [hdash, true_iff]
    omega

end Statistics

/-! ## The counters in a download -/

/-- as many pieces are completed as were handed to the file manager -/
theorem PieceManager.Inv.length_savedPieces {c : Config} {sha1 : Bytes → Bytes} {m : PieceManager} (h : m.Inv c sha1) :
    (Store.savedPieces m.trace).length = m.pieces.countP (fun q => q.state == .completed) := by
  have hstates : (List.range m.pieces.length).map m.stateOf = m.pieces.map fun q => some q.state := by
    apply List.ext_getElem (by simp)
    intro x hx _
    simp only [List.length_map, List.length_range] at hx
    simp [PieceManager.stateOf, List.getElem?_eq_getElem hx]
  have hperm : (Store.savedPieces m.trace).Perm
      ((List.range m.pieces.length).filter fun x => m.stateOf x == some .completed) := by
    have hnodup : (Store.savedPieces m.trace).Nodup := h.good.saves.nodup
    rw [List.perm_ext_iff_of_nodup hnodup (List.nodup_range.filter _)]
    intro x
    rw [← PieceManager.toStore_trace, ← h.good.saves.completed, List.mem_filter, List.mem_range, beq_iff_eq]
    constructor
    · intro hx
      obtain ⟨q, hq, -⟩ := PieceManager.state_toStore hx
      exact ⟨(List.getElem?_eq_some_iff.1 hq).1, hx⟩
    · exact fun hx => hx.2
  calc (Store.savedPieces m.trace).length
      = (List.range m.pieces.length).countP fun x => m.stateOf x == some .completed := by
        rw [hperm.length_eq, List.countP_eq_length_filter]
    _ = ((List.range m.pieces.length).map m.stateOf).countP fun st => st == some .completed := by
        rw [List.countP_map]; rfl
    _ = m.pieces.countP fun q => q.state == .completed := by
        rw [hstates, List.countP_map]; rfl

namespace Statistics

/-- the counters after a trace of the manager: `save_piece` counts before it hands the piece on -/
def watch (s : Statistics) (trace : List (Event ℕ)) : Statistics :=
  (Store.savedPieces trace).foldl (fun s _ => s.updatePieceCompleted) s

theorem foldl_updatePieceCompleted {α : Type} (l : List α) (s : Statistics) :
    l.foldl (fun s _ => s.updatePieceCompleted) s =
      { s with completedPieces := s.completedPieces + .ofNat l.length } := by
  induction l generalizing s with
  | nil => simp
  | cons x l ih =>
    have hadd : s.completedPieces + 1 + .ofNat l.length = s.completedPieces + .ofNat (l.length + 1) := by
      rw [UInt32.add_assoc, UInt32.ofNat_add, UInt32.add_comm 1]
      rfl
    rw [List.foldl_cons, ih, List.length_cons, ← hadd]
    rfl

theorem pieceLength_watch (s : Statistics) (trace : List (Event ℕ)) : (s.watch trace).pieceLength = s.pieceLength := by
  rw [watch, foldl_updatePieceCompleted]

section Download

variable {c : Config} {sha1 : Bytes → Bytes} {m : PieceManager}

/-- one piece counted for each that the manager completed -/
theorem toNat_completedPieces_watch (h : m.Inv c sha1) :
    ((startDownload c.data).watch m.trace).completedPieces.toNat = m.numPiecesCompleted := by
  rw [watch, foldl_updatePieceCompleted, h.shape.count, ← h.length_savedPieces]
  simp [startDownload, init, new]

/-- the rest of the counters is the torrent's, and none of it is cut -/
theorem toNat_watch (hc : c.data.Consistent) (hn : c.numPieces < 2 ^ 32) (trace : List (Event ℕ)) :
    ((startDownload c.data).watch trace).totalPieces.toNat = c.numPieces ∧
      ((startDownload c.data).watch trace).pieceLength.toNat = c.data.pieceLength ∧
      ((startDownload c.data).watch trace).totalLength.toNat = c.data.totalLength := by
  rw [watch, foldl_updatePieceCompleted]
  exact ⟨UInt32.toNat_ofNat_of_lt' hn, UInt32.toNat_ofNat_of_lt' hc.pieceLength_lt,
    UInt64.toNat_ofNat_of_lt' hc.totalLength_lt⟩

/-- **The counters stay consistent.** Whatever the piece manager of a consistent torrent is asked to do, the counters of
the display are consistent, and agree with the manager's. -/
theorem run_consistent (hc : c.data.Consistent) (hn : c.numPieces < 2 ^ 32) {ops : List PieceManager.Op}
    (h : c.run sha1 ops = .ok m) : ((startDownload c.data).watch m.trace).Consistent ∧
      ((startDownload c.data).watch m.trace).completedPieces.toNat = m.numPiecesCompleted := by
  have hinv := PieceManager.run_inv (fun o _ => o.narrow_of_lt hn) h
  have hcompleted := toNat_completedPieces_watch hinv
  have hle : m.numPiecesCompleted ≤ c.numPieces := by
    rw [hinv.count_eq hn, ← hinv.shape.size]
    exact List.countP_le_length
  obtain ⟨htotal, hpiece, hlength⟩ := toNat_watch hc hn m.trace
  refine ⟨⟨?_, ?_, ?_⟩, hcompleted⟩
  · rw [hpiece]
    exact hc.pieceLength_pos
  · rw [htotal, hpiece, hlength]
    exact hc.count
  · rw [hcompleted, htotal]
    exact hle

end Download

end Statistics

end SimpleTorrent
