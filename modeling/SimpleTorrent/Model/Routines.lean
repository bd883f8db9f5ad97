/-
The two coroutines of a peer (`start` and `send_messages` in `peer.cpp`), from their creation to their ends.

A coroutine runs from one `co_await` to the next without interruption, and the two can be resumed in any order. What one
of them has awaited ends with an outcome: it may have thrown, and so may what is called before the next `co_await`. What
the peer does with its piece manager is in `Peer`; here a call of `select_next_block` is one of three outcomes.
-/
import SimpleTorrent.Model.Peer

namespace SimpleTorrent

/-- where `start` is suspended -/
inductive MainRoutine where
  | created
  | connect
  | sendHandshake
  | receiveHandshake
  | sendInterested
  /-- in `read_header` -/
  | header
  | type (messageLength : ℕ)
  | payload (messageLength : ℕ) (messageType : UInt8)
  | ended
deriving DecidableEq, Repr

/-- where `send_messages` is suspended -/
inductive SpawnedRoutine where
  | notSpawned
  | spawned
  /-- in `send_block_requests` -/
  | write
  | timer
  | ended
deriving DecidableEq, Repr

/-- how what `start` awaits ends, and what is called before it is suspended again -/
structure MainOutcome where
  throws : Bool
  continueDownload : Bool
  messageLength : ℕ
  messageType : UInt8
deriving DecidableEq, Repr

/-- how a call of `select_next_block` ends -/
inductive Selection where
  | throws
  | none
  | request
deriving DecidableEq, Repr

/-- how what `send_messages` awaits ends, and `select_next_block` if it is called then -/
structure SpawnedOutcome where
  throws : Bool
  selection : Selection
deriving DecidableEq, Repr

structure Routines where
  main : MainRoutine
  spawned : SpawnedRoutine
  continueConnection : Bool
  isChoked : Bool
  numInFlight : UInt8
  mainRoutineHasExited : Bool
  spawnedRoutineHasExited : Bool
deriving DecidableEq, Repr

namespace Routines

/-- the constructor of `Peer`; `start` has been spawned -/
def init : Routines where
  main := .created
  spawned := .notSpawned
  continueConnection := true
  isChoked := true
  numInFlight := 0
  mainRoutineHasExited := false
  spawnedRoutineHasExited := true

def hasExited (s : Routines) : Bool := s.mainRoutineHasExited && s.spawnedRoutineHasExited

/-! ## start -/

/-- an early return of `start` -/
def leave (s : Routines) : Routines := { s with mainRoutineHasExited := true, main := .ended }

/-- the end of `start`, after `receive_messages` has returned or thrown -/
def finish (s : Routines) : Routines :=
  { s with continueConnection := false, mainRoutineHasExited := true, main := .ended }

/-- the condition of the loop in `receive_messages` -/
def receiveMessages (s : Routines) : Routines := if s.continueConnection then { s with main := .header } else s.finish

/-- `handle_message`, if it does not throw -/
def handleMessage (s : Routines) (type : UInt8) (payloadLength : ℕ) : Routines :=
  match messageType type with
  | .choke => { s with isChoked := true }
  | .unchoke => { s with isChoked := false }
  | .piece => if payloadLength < 9 then s else { s with numInFlight := s.numInFlight - 1 }
  | _ => s

def resumeMain (s : Routines) (o : MainOutcome) : Routines :=
  match s.main with
  -- `make_address` is called outside the `try` blocks
  | .created => if o.throws then { s with main := .ended } else { s with main := .connect }
  | .connect => if o.throws then s.leave else { s with main := .sendHandshake }
  | .sendHandshake => if o.throws then s.leave else { s with main := .receiveHandshake }
  | .receiveHandshake =>
    if o.throws then s.leave
    else if !o.continueDownload then s.leave
    else { s with main := .sendInterested }
  | .sendInterested =>
    if o.throws then s.leave
    else { s with spawnedRoutineHasExited := false, spawned := .spawned }.receiveMessages
  | .header =>
    if o.throws then s.finish
    else if o.messageLength = 0 then s.receiveMessages
    else { s with main := .type o.messageLength }
  | .type messageLength => if o.throws then s.finish else { s with main := .payload messageLength o.messageType }
  | .payload messageLength messageType =>
    if o.throws then s.finish else (s.handleMessage messageType (messageLength - 1)).receiveMessages
  | .ended => s

/-! ## send_messages -/

/-- the loop of `send_block_requests`; an exception is caught in `send_messages` -/
def sendBlockRequests (s : Routines) (selection : Selection) : Routines :=
  if s.numInFlight.toNat < Peer.maxInFlight then
    match selection with
    | .throws => { s with continueConnection := false, spawned := .ended }
    | .none => { s with spawned := .timer }
    | .request => { s with spawned := .write }
  else { s with spawned := .timer }

/-- the loop of `send_messages`, from its condition on -/
def sendMessages (s : Routines) (selection : Selection) : Routines :=
  if s.continueConnection then
    if s.isChoked then { s with spawned := .timer } else s.sendBlockRequests selection
  else { s with spawnedRoutineHasExited := true, spawned := .ended }

def resumeSpawned (s : Routines) (o : SpawnedOutcome) : Routines :=
  match s.spawned with
  | .notSpawned => s
  | .spawned => s.sendMessages o.selection
  | .write =>
    if o.throws then { s with continueConnection := false, spawned := .ended }
    else { s with numInFlight := s.numInFlight + 1 }.sendBlockRequests o.selection
  -- the wait is not in the `try` block
  | .timer => if o.throws then { s with spawned := .ended } else s.sendMessages o.selection
  | .ended => s

/-! ## Runs -/

inductive Op where
  | main (o : MainOutcome)
  | spawned (o : SpawnedOutcome)
  /-- the handler of `set_timeout` -/
  | timeout
deriving DecidableEq, Repr

def step (s : Routines) : Op → Routines
  | .main o => s.resumeMain o
  | .spawned o => s.resumeSpawned o
  | .timeout => { s with continueConnection := false }

def run (ops : List Op) : Routines := ops.foldl step init

end Routines

end SimpleTorrent
