/-
The progress display (`statistics.cpp`): its counters, the estimated time of arrival, and the text of a duration.

`drawProgress` is one turn of the loop, up to the text of the estimate; the seconds that have elapsed are an argument.
The speed is an exact rational where the source has a `double`. What only goes to the console (the number of peers, the
rendered speed, the percentage of the bar) is left out.
-/
import SimpleTorrent.Core.Decimal
import SimpleTorrent.Model.Types

namespace SimpleTorrent

open Checked Decimal

structure Statistics where
  totalPieces : UInt32
  pieceLength : UInt32
  totalLength : UInt64
  completedPieces : UInt32
deriving DecidableEq, Repr

namespace Statistics

/-- the instance has static storage, which is zero before the constructor runs -/
def new : Statistics := ⟨0, 0, 0, 0⟩

def updatePieceCompleted (s : Statistics) : Statistics := { s with completedPieces := s.completedPieces + 1 }

def init (s : Statistics) (numPieces pieceLength : UInt32) (totalLength : UInt64) : Statistics :=
  { s with totalPieces := numPieces, pieceLength := pieceLength, totalLength := totalLength }

/-- the counters after the call of `init` in `start_download`, which narrows two of its arguments -/
def startDownload (data : TorrentMetadata) : Statistics :=
  new.init (.ofNat data.pieceHashes.length) (.ofNat data.pieceLength) (.ofNat data.totalLength)

/-! ## format_duration -/

/-- ">1 day" -/
def overOneDay : Bytes := [62, 49, 32, 100, 97, 121]

/-- "h " -/
def hoursUnit : Bytes := [104, 32]

/-- "m " -/
def minutesUnit : Bytes := [109, 32]

/-- "s" -/
def secondsUnit : Bytes := [115]

/-- hours, minutes and seconds are narrowed to `int` -/
def formatDuration (totalSeconds : UInt64) : Bytes :=
  let hours := toInt (totalSeconds.toNat / 3600)
  let minutes := toInt (totalSeconds.toNat % 3600 / 60)
  let seconds := toInt (totalSeconds.toNat % 60)
  if 23 < hours then overOneDay
  else (if 0 < hours then render hours ++ hoursUnit else []) ++
    ((if 0 < minutes then render minutes ++ minutesUnit else []) ++ (render seconds ++ secondsUnit))

/-! ## draw_progress -/

section Draw

variable (s : Statistics) (elapsedTime : ℤ)

def totalBytesDownloaded : UInt64 := s.pieceLength.toUInt64 * s.completedPieces.toUInt64

/-- in KB/s, of whole kilobytes and whole seconds -/
def downloadSpeed : ℚ := if 0 < elapsedTime then (s.totalBytesDownloaded / 1024).toNat / elapsedTime else 0

def remainingLength : UInt64 := s.totalLength - s.totalBytesDownloaded

/-- `static_cast<uint64_t>(download_speed * 1024)` -/
def bytesPerSecond : UInt64 := .ofNat ⌊s.downloadSpeed elapsedTime * 1024⌋₊

/-- what `format_duration` is called with, if it is called; a division by zero is a fault, as a remainder is -/
def etaSeconds : Except Fault (Option UInt64) :=
  if 0 < s.downloadSpeed elapsedTime then
    if s.bytesPerSecond elapsedTime = 0 then .error .zeroModulus
    else .ok (some (s.remainingLength / s.bytesPerSecond elapsedTime))
  else .ok none

/-- "-" -/
def noEta : Bytes := [45]

/-- the text `eta_time` of one turn of the loop -/
def drawProgress : Except Fault Bytes := do
  let seconds ← s.etaSeconds elapsedTime
  return (seconds.map formatDuration).getD noEta

end Draw

end Statistics

end SimpleTorrent
