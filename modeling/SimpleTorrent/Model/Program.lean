/-
`TorrentClient::start_download` (`torrent_client.cpp`): the file is parsed, the trackers are asked, and the client runs.

A run begins with the text of the file. While the UDP trackers are asked, their coroutines continue in any order; when
all have ended, the HTTP trackers are asked one after the other, and what becomes of the set is handed to the client.
From then on a third thread draws the progress, which is `draw_progress` of `statistics.cpp`.

A run ends with a fault where the source leaves `start_download` with an exception (of the parser, of the trackers, of
the constructor of the file manager) or the process dies of a division by zero, on whatever thread. Threads can be
created, and memory is not exhausted. The time that has passed at a turn of the drawing thread is an argument of the
turn; what it draws is left out, except for the estimate. The speed in it is an exact rational, as in `Statistics`.
-/
import SimpleTorrent.Model.Client
import SimpleTorrent.Model.Parser
import SimpleTorrent.Model.Statistics
import SimpleTorrent.Model.UdpExchange

namespace SimpleTorrent

open Checked

/-- what ends `start_download`, or the process -/
inductive ProgramFault where
  | parse (error : ParseError)
  | tracker (fault : TrackerFault)
  | connString (error : ConnStringError)
  | client (fault : PoolFault)
  /-- on the thread that draws the progress -/
  | progress (fault : Fault)
deriving DecidableEq, Repr

/-- where the thread that draws the progress is -/
inductive Drawer where
  /-- at the condition of its loop -/
  | test
  /-- in the `sleep_for` of its loop -/
  | sleep
  | ended
deriving DecidableEq, Repr

/-- `start_download` in `peer_manager.start()`, or behind it; `tracker` is still in scope -/
structure Download where
  tracker : Tracker
  peerIps : List PeerConnInfo
  client : Client
  statistics : Statistics
  drawer : Drawer

inductive Phase where
  /-- in `tracker.add_peers()`, while `io_context.run()` runs -/
  | asking (trackers : UdpTrackers)
  | downloading (download : Download)

structure Program where
  metadata : TorrentMetadata
  ourId : Bytes
  phase : Phase

/-- the next step of `draw_progress` -/
def Download.drawProgress (s : Download) (elapsedTime : ℤ) : Except ProgramFault Download :=
  match s.drawer with
  | .test => .ok { s with drawer := if s.client.session.stopDownload then .ended else .sleep }
  | .sleep => do
    let _ ← (s.statistics.drawProgress elapsedTime).mapError .progress
    return { s with drawer := .test }
  | .ended => .ok s

/-- a step of the client. The thread that has called `set_stop_download` joins the drawing thread before it goes on.
`save_piece` counts a piece before it hands it to the file manager -/
def Download.step (sha1 : Bytes → Bytes) (s : Download) (o : Client.Op) : Except ProgramFault Download :=
  if s.client.session.stopDownload && s.drawer != .ended && o != .writer then .ok s
  else do
    let client ← (s.client.step sha1 o).mapError .client
    let saved := Client.saveCalls s.client.pieceManager client.pieceManager
    return { s with
      client := client
      statistics := saved.foldl (fun statistics _ => statistics.updatePieceCompleted) s.statistics }

namespace Program

/-- "http" -/
def httpPrefix : Bytes := [104, 116, 116, 112]

/-- what the HTTP trackers of a list of URLs send; one about which nothing is said fails -/
def httpReplies (trackerUrlList : List Bytes) (http : List HttpReply) : List HttpReply :=
  (List.range (trackerUrlList.filter httpPrefix.isPrefixOf).length).map fun i => http.getD i .failed

/-- the order in which the set lists its elements; an order that is none of them counts as the order they came in -/
def listing (order peerSet : List Bytes) : List Bytes := if order.isPerm peerSet then order else peerSet

section Address

variable (sha1 : Bytes → Bytes) (addressToString : Bytes → Bytes) (fileSystem : FileSystem)

/-- `start_download` up to `io_context.run()` -/
def new (file : Option Bytes) (ourId : Bytes) : Except ProgramFault Program := do
  let metadata ← (Parser.parseTorrentFile sha1 file).mapError .parse
  return ⟨metadata, ourId, .asking (.new metadata.trackerUrlList metadata.infoHash ourId)⟩

/-- the rest of `add_peers`, and `start_download` up to `peer_manager.start()` -/
def connect (s : Program) (trackers : UdpTrackers) (http : List HttpReply) (order : List Bytes) :
    Except ProgramFault Program := do
  let replies := httpReplies s.metadata.trackerUrlList http
  let tracker ← (trackers.addPeers addressToString replies).mapError .tracker
  let peerIps ← (getPeers (listing order tracker.peerSet)).mapError .connString
  let client ← (Client.new fileSystem s.metadata peerIps s.ourId).mapError .client
  return { s with phase := .downloading ⟨tracker, peerIps, client, .startDownload s.metadata, .test⟩ }

inductive Op where
  /-- the coroutine of a UDP tracker continues -/
  | exchange (i : ℕ) (o : Receipt)
  /-- `io_context.run()` returns -/
  | returned (http : List HttpReply) (order : List Bytes)
  | client (o : Client.Op)
  /-- the thread that draws the progress, so many seconds after its start -/
  | draw (elapsedTime : ℤ)

/-- what does not belong to the phase does not happen -/
def step (s : Program) : Op → Except ProgramFault Program
  | .exchange i o =>
    match s.phase with
    | .asking trackers => do
      let trackers ← (trackers.step addressToString (i, o)).mapError fun fault => .tracker (.access fault)
      return { s with phase := .asking trackers }
    | .downloading _ => .ok s
  | .returned http order =>
    match s.phase with
    | .asking trackers => if trackers.finished then s.connect addressToString fileSystem trackers http order else .ok s
    | .downloading _ => .ok s
  | .client o =>
    match s.phase with
    | .asking _ => .ok s
    | .downloading download => do
      let download ← download.step sha1 o
      return { s with phase := .downloading download }
  | .draw elapsedTime =>
    match s.phase with
    | .asking _ => .ok s
    | .downloading download => do
      let download ← download.drawProgress elapsedTime
      return { s with phase := .downloading download }

def run (file : Option Bytes) (ourId : Bytes) (ops : List Op) : Except ProgramFault Program := do
  let s ← new sha1 file ourId
  runM (step sha1 addressToString fileSystem) s ops

end Address

end Program

end SimpleTorrent
