/-
The peers that the trackers contribute (`tracker.cpp`, `http_tracker.cpp`, `udp_tracker.cpp`).

Trackers put strings "ip:port" into a set, and `get_peers` takes them apart again. What a tracker sends is an outcome of
the step that asks it: nothing, a datagram, or a response. An exception inside a tracker is caught, and what was inserted
before it stays. `address_v4::to_string` is a parameter.

The set is a list without duplicates; `getPeers` takes the order in which the hash set lists its elements. A ghost field
records the pairs that were inserted.
-/
import SimpleTorrent.Model.Bencode
import SimpleTorrent.Model.MessageUtil

namespace SimpleTorrent

open Checked Decimal MessageUtil

/-- "peers" -/
def peersKey : Bytes := [112, 101, 101, 114, 115]

/-- "ip" -/
def ipKey : Bytes := [105, 112]

/-- "port" -/
def portKey : Bytes := [112, 111, 114, 116]

/-! ## The set of peers -/

/-- `ip + ":" + std::to_string(port)` -/
def connString (ip : Bytes) (port : ℤ) : Bytes := ip ++ colon :: render port

structure Tracker where
  peerSet : List Bytes
  inserted : List (Bytes × ℤ)
deriving DecidableEq, Repr

/-- what `split_conn_string` throws: `std::invalid_argument` of `stoi`, `std::out_of_range` of `stoi`, and
`std::out_of_range("port out of range")` -/
inductive ConnStringError where
  | noConversion
  | intOutOfRange
  | portOutOfRange
deriving DecidableEq, Repr

/-- what ends `add_peers`: a response that `bencode::decode` rejects, or a read past the end of a buffer -/
inductive TrackerFault where
  | syntaxError
  | access (fault : Fault)
deriving DecidableEq, Repr

structure UdpReply where
  transactionId : ℕ
  datagram : Bytes
deriving DecidableEq, Repr

/-- what an HTTP tracker sends: not status 200, something that is not bencode, or a value -/
inductive HttpReply where
  | failed
  | malformed
  | decoded (response : Bencode)

namespace Tracker

def new : Tracker := ⟨[], []⟩

/-- `peer_set_.insert(ip + ":" + std::to_string(port))` -/
def insertPeer (s : Tracker) (ip : Bytes) (port : ℤ) : Tracker where
  peerSet := if connString ip port ∈ s.peerSet then s.peerSet else s.peerSet ++ [connString ip port]
  inserted := s.inserted ++ [(ip, port)]

/-! ## HttpTracker, dictionary form -/

/-- what the loop over the list reads of an entry -/
def readPeer (peer : Bencode) : Except BencodeError (Bytes × ℤ) := do
  let peerMap ← peer.getDict
  let ip ← (← dictAt peerMap ipKey).getString
  let port ← (← dictAt peerMap portKey).getInteger
  return (ip, port)

/-- the loop over the list; an exception ends it -/
def addPeerList (s : Tracker) : List Bencode → Option BencodeError × Tracker
  | [] => (none, s)
  | peer :: rest =>
    match readPeer peer with
    | .error e => (some e, s)
    | .ok (ip, port) => (s.insertPeer ip port).addPeerList rest

/-! ## Compact form -/

section Address

variable (addressToString : Bytes → Bytes)

/-- the two bytes at `off`, in host order -/
def readUint16 (bytes : Bytes) (off : ℕ) : ℕ := ((bytes.drop off).take 2).foldl (fun n b => n * 256 + b.toNat) 0

/-- the loops over records of four bytes of address and two of port, `count` of them from `off` on; reading past the end
of the buffer is undefined -/
def addRecords (s : Tracker) (buffer : Bytes) : ℕ → ℕ → Except Fault Tracker
  | 0, _ => .ok s
  | count + 1, off =>
    if off + 6 ≤ buffer.length then
      (s.insertPeer (addressToString ((buffer.drop off).take 4)) (readUint16 buffer (off + 4))).addRecords buffer
        count (off + 6)
    else .error .badCopy

/-- `parse_tracker_response`, with the exception it throws, if any -/
def parseTrackerResponse (s : Tracker) (response : Bencode) : Except Fault (Option BencodeError × Tracker) :=
  match response.getDict >>= fun d => dictAt d peersKey with
  | .error e => .ok (some e, s)
  | .ok (.list peerList) => .ok (s.addPeerList peerList)
  | .ok (.string peersString) => do
    -- `for (i = 0; i < size; i += 6)`; the byte after the string is a null
    let s ← s.addRecords addressToString (peersString ++ [0]) ((peersString.length + 5) / 6) 0
    return (none, s)
  | .ok _ => .ok (none, s)

/-! ## UdpTracker -/

def announceAction : ℕ := 1

/-- the end of `send_announce_request`, from the reply on; `none` if it throws -/
def handleAnnounceResponse (s : Tracker) (reply : UdpReply) : Except Fault (Option Tracker) :=
  let received := reply.datagram.take 2048
  let announceResponse := resize received 2048 0
  if readUint32 announceResponse 0 ≠ announceAction ∨ readUint32 announceResponse 4 ≠ reply.transactionId then .ok none
  else do
    -- `(bytes_received - 20) / 6` in 64 bits
    let s ← s.addRecords addressToString announceResponse ((received.length + 2 ^ 64 - 20) % 2 ^ 64 / 6) 20
    return some s

/-! ## Tracker -/

/-- the UDP trackers, in the order in which their replies arrive; `none` is one that failed before -/
def addUdpPeers (s : Tracker) : List (Option UdpReply) → Except Fault Tracker
  | [] => .ok s
  | none :: rest => s.addUdpPeers rest
  | some reply :: rest => do
    let r ← s.handleAnnounceResponse addressToString reply
    (r.getD s).addUdpPeers rest

/-- the HTTP trackers; `parse_tracker_response` is called in a `try` block, `decode` is not -/
def addHttpPeers (s : Tracker) : List HttpReply → Except TrackerFault Tracker
  | [] => .ok s
  | .failed :: rest => s.addHttpPeers rest
  | .malformed :: _ => .error .syntaxError
  | .decoded response :: rest => do
    let (_, s) ← (s.parseTrackerResponse addressToString response).mapError .access
    s.addHttpPeers rest

/-- HTTP trackers are asked only if the UDP trackers returned no peers -/
def addPeers (udp : List (Option UdpReply)) (http : List HttpReply) : Except TrackerFault Tracker := do
  let s ← (new.addUdpPeers addressToString udp).mapError .access
  if 0 < s.peerSet.length then return s
  s.addHttpPeers addressToString http

end Address

end Tracker

/-! ## get_peers -/

/-- `std::stoi` -/
def stoi (s : Bytes) : Except ConnStringError ℤ :=
  match scan s with
  | none => .error .noConversion
  | some n => if -2 ^ 31 ≤ n ∧ n < 2 ^ 31 then .ok n else .error .intOutOfRange

def splitConnString (connString : Bytes) : Except ConnStringError PeerConnInfo := do
  -- without a colon both are the whole string
  let (ip, portStr) := if colon ∈ connString then
      (connString.takeWhile (· ≠ colon), (connString.dropWhile (· ≠ colon)).drop 1)
    else (connString, connString)
  let intPort ← stoi portStr
  if intPort < 0 ∨ 65535 < intPort then .error .portOutOfRange
  else return ⟨ip, intPort.toNat⟩

/-- `get_peers`, for the order in which the set lists its elements -/
def getPeers (order : List Bytes) : Except ConnStringError (List PeerConnInfo) := order.mapM splitConnString

end SimpleTorrent
