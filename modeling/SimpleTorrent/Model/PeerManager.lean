/-
The connection pool of `PeerManager` (`PeerManager.h`, `peer_manager.cpp`, `StateTransition.h`): which addresses have a
`Peer`, and which may be tried again.

Of a `Peer` the pool uses its id, its address, and whether it has exited; when a peer exits is not decided here. Ghost
fields record the addresses a `Peer` was created for, and the ids for which `remove_peer` was called.
-/
import SimpleTorrent.Model.Types

namespace SimpleTorrent

open Checked

inductive PeerState where
  | notConnected
  | connected1
  | connected2
  | disconnected1
  | disconnected2
deriving DecidableEq, Repr

/-- what ends a run of the pool, or of the client around it -/
inductive PoolFault where
  /-- the exception of `get_next_peer_state` -/
  | invalidState
  /-- the exception of `create_and_open_file` -/
  | fileSystem
  | access (fault : Fault)
deriving DecidableEq, Repr

def access {α : Type} (x : Except Fault α) : Except PoolFault α := x.mapError .access

@[simp] theorem access_ok {α : Type} {x : Except Fault α} {a : α} : access x = .ok a ↔ x = .ok a :=
  mapError_eq_ok

def getNextPeerState : PeerState → Except PoolFault PeerState
  | .notConnected => .ok .connected1
  | .connected1 => .ok .disconnected1
  | .disconnected1 => .ok .connected2
  | .connected2 => .ok .disconnected2
  | .disconnected2 => .error .invalidState

/-- what the pool uses of a `Peer`; its id is a `uint32_t` -/
structure PeerHandle where
  peerNumId : ℕ
  connInfo : PeerConnInfo
deriving DecidableEq, Repr

structure PeerManager where
  peers : List PeerHandle
  peersState : List PeerState
  peerIps : List PeerConnInfo
  /-- the addresses, by index, of all peers ever created -/
  created : List ℕ
  /-- the ids handed to `remove_peer` -/
  removed : List ℕ
deriving DecidableEq, Repr

namespace PeerManager

def maxNumConnectedPeers : ℕ := 60

/-- a new `Peer` for address `i`, whose state becomes `next` -/
def addPeer (s : PeerManager) (i : ℕ) (info : PeerConnInfo) (next : PeerState) : PeerManager :=
  { s with
    peers := s.peers ++ [⟨i % 2 ^ 32, info⟩]
    peersState := s.peersState.set i next
    created := s.created ++ [i] }

/-- the loop of the constructor, over the indices that are left -/
def startPeers (s : PeerManager) : List ℕ → Except PoolFault PeerManager
  | [] => .ok s
  | i :: rest => do
    let info ← access (vecAt s.peerIps i)
    let next ← getNextPeerState .notConnected
    let s := s.addPeer i info next
    if i + 1 = maxNumConnectedPeers then return s
    s.startPeers rest

def new (peerIps : List PeerConnInfo) : Except PoolFault PeerManager :=
  startPeers ⟨[], List.replicate peerIps.length .notConnected, peerIps, [], []⟩ (List.range peerIps.length)

/-- the loop of `cleanup_connections`, over the exited peers that are left -/
def dropPeers (s : PeerManager) : List PeerHandle → Except PoolFault PeerManager
  | [] => .ok s
  | p :: rest => do
    let s := { s with removed := s.removed ++ [p.peerNumId] }
    let peerState ← access (vecAt s.peersState p.peerNumId)
    let next ← getNextPeerState peerState
    dropPeers { s with peersState := s.peersState.set p.peerNumId next } rest

/-- `cleanup_connections`, where `std::partition` puts `kept` first and then the exited peers, `dropped`, both in some
order; two lists that are not a rearrangement of `peers_` are no outcome of it -/
def cleanupConnections (s : PeerManager) (kept dropped : List PeerHandle) : Except PoolFault PeerManager :=
  if (kept ++ dropped).isPerm s.peers then do
    let s ← s.dropPeers dropped
    return { s with peers := kept }
  else .ok s

/-- the loop of `open_connections`, over the indices that are left -/
def openPeers (s : PeerManager) : List ℕ → Except PoolFault PeerManager
  | [] => .ok s
  | i :: rest => do
    let state ← access (vecIdx s.peersState i)
    if state = .notConnected ∨ state = .disconnected1 then
      if maxNumConnectedPeers ≤ s.peers.length then return s
      let info ← access (vecAt s.peerIps i)
      let next ← getNextPeerState state
      (s.addPeer i info next).openPeers rest
    else s.openPeers rest

def openConnections (s : PeerManager) : Except PoolFault PeerManager := s.openPeers (List.range s.peerIps.length)

inductive Op where
  | cleanup (kept dropped : List PeerHandle)
  | open_
deriving DecidableEq, Repr

def step (s : PeerManager) : Op → Except PoolFault PeerManager
  | .cleanup kept dropped => s.cleanupConnections kept dropped
  | .open_ => s.openConnections

/-- the constructor, and then calls of `cleanup_connections` and `open_connections` -/
def run (peerIps : List PeerConnInfo) (ops : List Op) : Except PoolFault PeerManager := do
  let s ← new peerIps
  runM step s ops

end PeerManager

end SimpleTorrent
