/-
The receive loop of a peer (`receive_messages`, `read_header` and `set_timeout` in `peer.cpp`).

The coroutine is suspended at one of three reads. Each read ends with an `Outcome`: how many bytes arrived, which is
fewer than were asked for exactly if the read failed, and what else happened in the meantime. The results of the reads
are not looked at; the header buffer lives as long as the loop, and keeps the bytes that a read does not overwrite.

Ghost fields record the bytes received up to the first failure, whether a read has failed, and whether the loop was
entered again after that.
-/
import SimpleTorrent.Core.Splice
import SimpleTorrent.Model.MessageUtil

namespace SimpleTorrent

open Splice MessageUtil

/-- where the receive coroutine is suspended -/
inductive ReceiveState where
  /-- in `read_header` -/
  | header
  | type (messageLength : ℕ)
  | payload (messageLength : ℕ) (messageType : UInt8)
  | exited
deriving DecidableEq, Repr

/-- the end of one read -/
structure Outcome where
  /-- the bytes that arrived; those beyond the size asked for are not read -/
  data : Bytes
  /-- `continue_connection_` has been cleared, by a timeout or by the send coroutine -/
  stop : Bool
  /-- what the uninitialised `message_type` holds if nothing arrives -/
  stale : UInt8
  /-- the handler throws, if this read leads to a call of it -/
  throws : Bool
deriving DecidableEq, Repr

structure Receiver where
  state : ReceiveState
  header : Bytes
  continueConnection : Bool
  /-- the calls of `handle_message` -/
  handled : List (UInt8 × Bytes)
  received : Bytes
  failed : Bool
  /-- an iteration began after a read had failed -/
  late : Bool
deriving DecidableEq, Repr

namespace Receiver

/-- the condition of the loop -/
def test (s : Receiver) : Receiver :=
  if s.continueConnection then { s with state := .header, late := s.late || s.failed }
  else { s with state := .exited }

/-- the start of `receive_messages` -/
def init (continueConnection : Bool) : Receiver :=
  test
    { state := .exited
      header := List.replicate 4 0
      continueConnection := continueConnection
      handled := []
      received := []
      failed := false
      late := false }

/-- how many bytes the pending read asks for -/
def wanted (s : Receiver) : ℕ :=
  match s.state with
  | .header => 4
  | .type _ => 1
  | .payload messageLength _ => messageLength - 1
  | .exited => 0

/-- a read of `size` bytes ends -/
def read (s : Receiver) (size : ℕ) (o : Outcome) : Receiver :=
  { s with
    continueConnection := s.continueConnection && !o.stop
    received := if s.failed then s.received else s.received ++ o.data.take size
    failed := s.failed || o.data.length < size }

/-- a buffer after a read into it -/
def fill (buffer : Bytes) (o : Outcome) : Bytes := splice buffer 0 (o.data.take buffer.length)

def step (s : Receiver) (o : Outcome) : Receiver :=
  match s.state with
  | .header =>
    let header := fill s.header o
    let s := { s.read 4 o with header := header }
    let messageLength := getHeaderLength header
    if messageLength = 0 then s.test else { s with state := .type messageLength }
  | .type messageLength =>
    let messageType := (fill [o.stale] o).headD 0
    { s.read 1 o with state := .payload messageLength messageType }
  | .payload messageLength messageType =>
    let payload := fill (List.replicate (messageLength - 1) 0) o
    let s := { s.read (messageLength - 1) o with handled := s.handled ++ [(messageType, payload)] }
    if o.throws then { s with state := .exited } else s.test
  | .exited => s

def run (s : Receiver) (script : List Outcome) : Receiver := script.foldl step s

end Receiver

end SimpleTorrent
