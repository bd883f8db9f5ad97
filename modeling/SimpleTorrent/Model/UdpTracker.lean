/-
The datagrams of `UdpTracker` (`udp_tracker.cpp`): the reply to a connect request, and the announce request; the reply
to that is in `Tracker`.

A request is an array that is not initialised: a byte that no `memcpy` has written is `none`. The reply to a connect
request arrives in such an array, too; what it holds before is an argument.
-/
import SimpleTorrent.Core.Splice
import SimpleTorrent.Model.Tracker

namespace SimpleTorrent.UdpTracker

open Checked Splice MessageUtil

/-! ## Numbers -/

/-- the eight bytes of a `uint64_t` in network order -/
def writeUint64 (n : ℕ) : Bytes := writeUint32 (n / 2 ^ 32) ++ writeUint32 (n % 2 ^ 32)

/-- the two bytes of a `uint16_t` in network order -/
def writeUint16 (n : ℕ) : Bytes := [UInt8.ofNat (n / 2 ^ 8 % 256), UInt8.ofNat (n % 256)]

/-- the eight bytes at `off`, in host order -/
def readUint64 (bytes : Bytes) (off : ℕ) : ℕ := readUint32 bytes off * 2 ^ 32 + readUint32 bytes (off + 4)

/-! ## send_connect_request -/

def connectAction : ℕ := 0

/-- what is returned for a reply that was received, from the reply on; `none` if it throws. The array has 16 bytes. -/
def handleConnectResponse (transactionId : ℕ) (uninitialised datagram : Bytes) : Option ℕ :=
  let connectResponse := splice uninitialised 0 (datagram.take 16)
  if readUint32 connectResponse 0 ≠ connectAction ∨ readUint32 connectResponse 4 ≠ transactionId then none
  else some (readUint64 connectResponse 8)

/-! ## send_announce_request -/

/-- an array whose bytes may be indeterminate -/
abbrev Datagram := List (Option UInt8)

/-- `std::memcpy(data() + off, src, n)`, for the `n` bytes of `src` -/
def memcpy (data : Datagram) (off : ℕ) (src : Bytes) : Datagram := splice data off (src.map some)

def maxPeersWanted : ℕ := 200

def myPort : ℕ := 80

/-- the request of `send_announce_request`; 20 bytes are copied from each of the two strings -/
def announceRequest (connectionId transactionId : ℕ) (infoHash ourId : Bytes) : Except Fault Datagram := do
  let decoded ← hexDecode infoHash
  let binaryInfoHash ← copyFrom (decoded ++ [0]) 0 20
  let binaryId ← copyFrom (ourId ++ [0]) 0 20
  let request := memcpy (List.replicate 98 none) 0 (writeUint64 connectionId)
  let request := memcpy request 8 (writeUint32 Tracker.announceAction)
  let request := memcpy request 12 (writeUint32 transactionId)
  let request := memcpy request 16 binaryInfoHash
  let request := memcpy request 36 binaryId
  let request := memcpy request 56 (writeUint64 0) -- downloaded
  let request := memcpy request 64 (writeUint64 0) -- left
  let request := memcpy request 72 (writeUint64 0) -- uploaded
  let request := memcpy request 80 (writeUint32 0) -- event
  let request := memcpy request 84 (writeUint32 0) -- IP
  let request := memcpy request 88 (writeUint32 maxPeersWanted)
  return memcpy request 92 (writeUint16 myPort)

end SimpleTorrent.UdpTracker
