/-
The UDP trackers while they are asked (`udp_tracker.cpp`, and `add_peers` of `tracker.cpp`): what is taken from an
announce URL, the connect request, and the coroutine that `UdpTracker::add_peers` spawns.

All coroutines run on one `io_context` and insert into one set. What a coroutine awaits ends with a `Receipt`; a timer
that runs out makes it throw. A datagram may come from anybody: nothing looks at `sender_endpoint`. The timer of a
request is not modelled after its function has returned.

Ghost fields list the datagrams that were sent, and the replies from which peers were taken or refused.
-/
import SimpleTorrent.Model.UdpTracker

namespace SimpleTorrent

open Checked MessageUtil

namespace UdpTracker

/-! ## URLs -/

/-- '/' -/
def slash : UInt8 := 47

/-- "://" -/
def schemeEnd : Bytes := [colon, slash, slash]

/-- `s.find(pattern, pos)` -/
def find (s pattern : Bytes) (pos : ℕ) : Option ℕ :=
  (List.range (s.length + 1)).find? fun i => pos ≤ i && pattern.isPrefixOf (s.drop i)

/-- `s.substr(start, stop - start)`; `stop` may be `npos` -/
def substr (s : Bytes) (start : ℕ) (stop : Option ℕ) : Bytes := (s.drop start).take (stop.getD s.length - start)

/-- `none` is the exception -/
def extractHost (announceUrl : Bytes) : Option Bytes :=
  (find announceUrl schemeEnd 0).map fun i =>
    let hostStart := i + 3
    let hostEnd := (find announceUrl [colon] hostStart).or (find announceUrl [slash] hostStart)
    substr announceUrl hostStart hostEnd

/-- `none` is the exception; `npos + 3` is 2 -/
def extractPort (announceUrl : Bytes) : Option Bytes :=
  (find announceUrl [colon] (((find announceUrl schemeEnd 0).map (· + 3)).getD 2)).map fun i =>
    let portStart := i + 1
    substr announceUrl portStart (find announceUrl [slash] portStart)

/-! ## send_connect_request -/

/-- the special bytes -/
def initialConnectionId : ℕ := 0x41727101980

def connectRequest (transactionId : ℕ) : Datagram :=
  let request := memcpy (List.replicate 16 none) 0 (writeUint64 initialConnectionId)
  let request := memcpy request 8 (writeUint32 connectAction)
  memcpy request 12 (writeUint32 transactionId)

end UdpTracker

/-! ## The coroutine -/

/-- where the coroutine of `UdpTracker::add_peers` is suspended -/
inductive Exchange where
  /-- it has been spawned -/
  | created
  /-- in `async_resolve` -/
  | resolve (host port : Bytes)
  /-- in `async_receive_from` of `send_connect_request` -/
  | connect (transactionId : ℕ)
  /-- in `async_receive_from` of `send_announce_request` -/
  | announce (transactionId : ℕ)
  | ended
deriving DecidableEq, Repr

structure UdpTracker where
  trackerUrl : Bytes
  exchange : Exchange
  /-- the datagrams handed to the socket, oldest first -/
  sent : List UdpTracker.Datagram
deriving DecidableEq, Repr

/-- how what a coroutine awaits ends, and what happens up to the next `co_await` -/
structure Receipt where
  throws : Bool
  datagram : Bytes
  /-- what the array of `send_connect_request` holds before -/
  memory : Bytes
  /-- what `random_uint32` returns -/
  random : ℕ
  sendThrows : Bool
deriving DecidableEq, Repr

/-- a `uint32_t` -/
def Receipt.transactionId (o : Receipt) : ℕ := o.random % 2 ^ 32

/-- the 16 bytes of an array that nobody has written -/
def Receipt.uninitialised (o : Receipt) : Bytes := (o.memory ++ List.replicate 16 0).take 16

structure UdpTrackers where
  /-- `peer_set_`, which all share -/
  tracker : Tracker
  udpTrackers : List UdpTracker
  infoHash : Bytes
  ourId : Bytes
  /-- the replies to announce requests, each with the place of its tracker, in the order in which they came -/
  replies : List (ℕ × UdpReply)
deriving DecidableEq, Repr

namespace UdpTrackers

/-- "udp" -/
def udpPrefix : Bytes := [117, 100, 112]

/-- the URLs that start with "udp" -/
def new (trackerUrlList : List Bytes) (infoHash ourId : Bytes) : UdpTrackers where
  tracker := .new
  udpTrackers := (trackerUrlList.filter udpPrefix.isPrefixOf).map fun url => ⟨url, .created, []⟩
  infoHash := infoHash
  ourId := ourId
  replies := []

def put (s : UdpTrackers) (i : ℕ) (t : UdpTracker) : UdpTrackers := { s with udpTrackers := s.udpTrackers.set i t }

/-- the coroutine ends, with or without an exception -/
def finish (s : UdpTrackers) (i : ℕ) (t : UdpTracker) : UdpTrackers := s.put i { t with exchange := .ended }

/-- a request is sent, and its reply awaited -/
def send (s : UdpTrackers) (i : ℕ) (t : UdpTracker) (o : Receipt) (request : UdpTracker.Datagram) (next : Exchange) :
    UdpTrackers :=
  if o.sendThrows then s.finish i t else s.put i { t with exchange := next, sent := t.sent ++ [request] }

section Address

variable (addressToString : Bytes → Bytes)

/-- the coroutine in place `i` continues -/
def resume (s : UdpTrackers) (i : ℕ) (t : UdpTracker) (o : Receipt) : Except Fault UdpTrackers :=
  match t.exchange with
  | .created =>
    match UdpTracker.extractHost t.trackerUrl, UdpTracker.extractPort t.trackerUrl with
    | some host, some port => .ok (s.put i { t with exchange := .resolve host port })
    | _, _ => .ok (s.finish i t)
  | .resolve _ _ =>
    if o.throws then .ok (s.finish i t)
    else .ok (s.send i t o (UdpTracker.connectRequest o.transactionId) (.connect o.transactionId))
  | .connect transactionId =>
    if o.throws then .ok (s.finish i t)
    else
      match UdpTracker.handleConnectResponse transactionId o.uninitialised o.datagram with
      | none => .ok (s.finish i t)
      | some connectionId => do
        let request ← UdpTracker.announceRequest connectionId o.transactionId s.infoHash s.ourId
        return s.send i t o request (.announce o.transactionId)
  | .announce transactionId =>
    if o.throws then .ok (s.finish i t)
    else do
      let reply : UdpReply := ⟨transactionId, o.datagram⟩
      let r ← s.tracker.handleAnnounceResponse addressToString reply
      return { s.finish i t with tracker := r.getD s.tracker, replies := s.replies ++ [(i, reply)] }
  | .ended => .ok s

/-- the coroutine of a tracker continues; one that is not there does not -/
def step (s : UdpTrackers) (o : ℕ × Receipt) : Except Fault UdpTrackers :=
  match s.udpTrackers[o.1]? with
  | none => .ok s
  | some t => s.resume addressToString o.1 t o.2

/-- the rest of `Tracker::add_peers`; HTTP trackers are asked only if the UDP trackers returned no peers -/
def addPeers (s : UdpTrackers) (http : List HttpReply) : Except TrackerFault Tracker :=
  if 0 < s.tracker.peerSet.length then .ok s.tracker else s.tracker.addHttpPeers addressToString http

end Address

/-- `io_context.run()` returns -/
def finished (s : UdpTrackers) : Bool := s.udpTrackers.all fun t => t.exchange == .ended

end UdpTrackers

end SimpleTorrent
