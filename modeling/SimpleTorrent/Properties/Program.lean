/-
The whole program, from the text of a torrent file on.

- `Composed`, `run_sound`: a run of the program is a run of the trackers' coroutines, the HTTP trackers, and a run of
  the client for the addresses that came of it, beside a display that counts its pieces.
- `connects_to_listed`: the program connects to addresses that trackers gave, and to none more than twice.
- `faults_iff`: with UDP trackers only, it faults at a truncated reply to an announce request, at a path that cannot be
  opened, at an estimate for a download that is too slow, and at nothing else.
-/
import SimpleTorrent.Model.Program
import SimpleTorrent.Properties.Download
import SimpleTorrent.Properties.Eta
import SimpleTorrent.Properties.TrackerPeers
import SimpleTorrent.Properties.UdpExchange

namespace SimpleTorrent

open Checked MessageUtil
open Decimal (dotted)

/-! ## The addresses of the pool -/

namespace PeerManager

variable {peerIps : List PeerConnInfo} {s t : PeerManager}

/-- every peer has one of the addresses -/
structure Listed (peerIps : List PeerConnInfo) (s : PeerManager) : Prop where
  ips : s.peerIps = peerIps
  peers : ∀ p ∈ s.peers, p.connInfo ∈ peerIps

theorem Listed.addPeer {i : ℕ} {info : PeerConnInfo} {next : PeerState} (h : s.Listed peerIps)
    (hinfo : access (vecAt s.peerIps i) = .ok info) : (s.addPeer i info next).Listed peerIps := by
  rw [access_ok, vecAt_eq_ok, h.ips] at hinfo
  refine ⟨h.ips, fun p hp => ?_⟩
  rcases List.mem_append.1 hp with hp | hp
  · exact h.peers p hp
  · rw [List.mem_singleton.1 hp]
    exact List.mem_of_getElem? hinfo

theorem startPeers_listed {rest : List ℕ} (h : s.Listed peerIps) (hs : s.startPeers rest = .ok t) :
    t.Listed peerIps := by
  induction rest generalizing s with
  | nil =>
    cases hs
    exact h
  | cons i rest ih =>
    obtain ⟨info, hinfo, hs⟩ := bind_eq_ok.1 hs
    obtain ⟨next, -, hs⟩ := bind_eq_ok.1 hs
    have hadd : (s.addPeer i info next).Listed peerIps := h.addPeer hinfo
    simp only at hs
    split_ifs at hs
    · cases hs
      exact hadd
    · exact ih hadd hs

theorem openPeers_listed {rest : List ℕ} (h : s.Listed peerIps) (hs : s.openPeers rest = .ok t) :
    t.Listed peerIps := by
  induction rest generalizing s with
  | nil =>
    cases hs
    exact h
  | cons i rest ih =>
    obtain ⟨state, -, hs⟩ := bind_eq_ok.1 hs
    split_ifs at hs
    · cases hs
      exact h
    · obtain ⟨info, hinfo, hs⟩ := bind_eq_ok.1 hs
      obtain ⟨next, -, hs⟩ := bind_eq_ok.1 hs
      exact ih (h.addPeer hinfo) hs
    · exact ih h hs

theorem dropPeers_peerIps {dropped : List PeerHandle} (h : s.dropPeers dropped = .ok t) : t.peerIps = s.peerIps := by
  induction dropped generalizing s with
  | nil =>
    cases h
    rfl
  | cons p dropped ih =>
    obtain ⟨state, -, h⟩ := bind_eq_ok.1 h
    obtain ⟨next, -, h⟩ := bind_eq_ok.1 h
    have hrest := ih h
    exact hrest

theorem step_listed {o : Op} (h : s.Listed peerIps) (hs : s.step o = .ok t) : t.Listed peerIps := by
  cases o with
  | open_ => exact openPeers_listed h hs
  | cleanup kept dropped =>
    rw [step, cleanupConnections] at hs
    split_ifs at hs with hp
    · obtain ⟨u, hu, hs⟩ := bind_eq_ok.1 hs
      cases hs
      refine ⟨(dropPeers_peerIps hu).trans h.ips, fun p hp' => h.peers p ?_⟩
      exact (List.isPerm_iff.1 hp).subset (List.mem_append_left _ hp')
    · cases hs
      exact h

theorem run_listed {ops : List Op} (h : run peerIps ops = .ok s) : s.Listed peerIps := by
  obtain ⟨s₀, hs₀, h⟩ := bind_eq_ok.1 h
  have hstart : s₀.Listed peerIps := startPeers_listed ⟨rfl, by simp⟩ hs₀
  exact runM_inv (P := fun _ => True) (fun _ _ _ hu _ hv => step_listed hu hv) hstart (fun _ _ => trivial) h

/-- when no address is listed twice, none is connected to more than twice -/
theorem Books.connections (h : Books peerIps s s.peers) (hnodup : peerIps.Nodup) (address : PeerConnInfo) :
    s.created.countP (fun i => peerIps[i]? = some address) ≤ 2 := by
  by_cases haddress : address ∈ peerIps
  · obtain ⟨k, hk⟩ := List.getElem?_of_mem haddress
    have hone : ∀ i ∈ s.created, (decide (peerIps[i]? = some address) = true ↔ (i == k) = true) := by
      intro i hi
      rw [decide_eq_true_eq, beq_iff_eq]
      refine ⟨fun hi' => ?_, fun hik => hik ▸ hk⟩
      exact (List.getElem?_inj (h.created i hi) hnodup).1 (hi'.trans hk.symm)
    rw [List.countP_congr hone]
    exact h.count_created k
  · have hnone : ∀ i ∈ s.created, ¬ decide (peerIps[i]? = some address) = true := by
      intro i _ hi
      exact haddress (List.mem_of_getElem? (of_decide_eq_true hi))
    rw [List.countP_eq_zero.2 hnone]
    exact Nat.zero_le 2

end PeerManager

/-! ## The phases -/

/-- the addresses that the client has -/
def Phase.addresses : Phase → Option (List PeerConnInfo)
  | .asking _ => none
  | .downloading d => some d.peerIps

/-! ## The display -/

namespace Statistics

variable {m n : PieceManager}

/-- the pieces that the manager has saved since are counted -/
theorem foldl_saveCalls (h : m.trace <+: n.trace) (s : Statistics) :
    (Client.saveCalls m n).foldl (fun s _ => s.updatePieceCompleted) (s.watch m.trace) = s.watch n.trace := by
  obtain ⟨l, hl⟩ := h
  have hcount : (Client.saveCalls m n).length = (Store.savedPieces l).length := by
    rw [Client.saveCalls, ← hl, List.drop_left, Store.savedPieces, List.length_filterMap_eq_countP,
      List.length_filterMap_eq_countP]
    refine List.countP_congr fun e _ => ?_
    cases e <;> simp
  rw [← hl, watch, watch, Store.savedPieces_append, List.foldl_append,
    foldl_updatePieceCompleted (Client.saveCalls m n), foldl_updatePieceCompleted (Store.savedPieces l), hcount]

end Statistics

namespace Download

variable {sha1 : Bytes → Bytes} {d next : Download}

theorem step_eq_ok {o : Client.Op} (h : d.step sha1 o = .ok next) :
    next = d ∨ ∃ client, d.client.step sha1 o = .ok client ∧ next = { d with
      client := client
      statistics := (Client.saveCalls d.client.pieceManager client.pieceManager).foldl
        (fun s _ => s.updatePieceCompleted) d.statistics } := by
  rw [step] at h
  split_ifs at h
  · exact Or.inl (Except.ok.inj h).symm
  · obtain ⟨client, hclient, h⟩ := bind_eq_ok.1 h
    exact Or.inr ⟨client, mapError_eq_ok.1 hclient, (Except.ok.inj h).symm⟩

theorem drawProgress_eq_ok {elapsedTime : ℤ} (h : d.drawProgress elapsedTime = .ok next) :
    ∃ drawer, next = { d with drawer := drawer } := by
  rw [drawProgress] at h
  split at h
  · exact ⟨_, (Except.ok.inj h).symm⟩
  · obtain ⟨text, -, h⟩ := bind_eq_ok.1 h
    exact ⟨_, (Except.ok.inj h).symm⟩
  · exact ⟨d.drawer, (Except.ok.inj h).symm⟩

theorem drawProgress_fault_iff {elapsedTime : ℤ} : (∃ f, d.drawProgress elapsedTime = .error f) ↔
    d.drawer = .sleep ∧ ∃ f, d.statistics.drawProgress elapsedTime = .error f := by
  rw [drawProgress]
  cases d.drawer with
  | sleep => cases hdraw : d.statistics.drawProgress elapsedTime <;> simp [Except.mapError]
  | _ => simp

end Download

namespace Program

variable {sha1 addressToString : Bytes → Bytes} {fs : FileSystem} {file : Option Bytes} {ourId : Bytes}
  {metadata : TorrentMetadata} {s t : Program} {ops : List Op}

/-- a phase is reached by runs of the parts, and the display counts the pieces of the piece manager -/
inductive Composed (sha1 addressToString : Bytes → Bytes) (fs : FileSystem) (metadata : TorrentMetadata)
    (ourId : Bytes) : Phase → Prop
  | asking {trackers : UdpTrackers} (ops : List (ℕ × Receipt))
      (h : runM (UdpTrackers.step addressToString) (.new metadata.trackerUrlList metadata.infoHash ourId) ops =
        .ok trackers) :
      Composed sha1 addressToString fs metadata ourId (.asking trackers)
  | downloading {d : Download} (udp : List (Option UdpReply)) (http : List HttpReply) (order : List Bytes)
      (ops : List Client.Op) (hudp : udp.length ≤ metadata.trackerUrlList.length)
      (hhttp : http.length = (metadata.trackerUrlList.filter httpPrefix.isPrefixOf).length)
      (htracker : Tracker.addPeers addressToString udp http = .ok d.tracker) (horder : order.Perm d.tracker.peerSet)
      (hpeers : getPeers order = .ok d.peerIps)
      (hclient : Client.run sha1 fs metadata d.peerIps ourId ops = .ok d.client)
      (hcounts : metadata.Startable → d.peerIps.length ≤ 2 ^ 32 →
        d.statistics = (Statistics.startDownload metadata).watch d.client.pieceManager.trace) :
      Composed sha1 addressToString fs metadata ourId (.downloading d)

/-- the client is ready -/
theorem client_ready {peerIps : List PeerConnInfo} {clientOps : List Client.Op} {client : Client}
    (hd : metadata.Startable) (hn : peerIps.length ≤ 2 ^ 32)
    (h : Client.run sha1 fs metadata peerIps ourId clientOps = .ok client) :
    ∃ hello, client.Ready fs hd.consistent.config peerIps sha1 hello := by
  obtain ⟨digest, -, hhello⟩ := hd.hello ourId
  obtain ⟨u, hu, hready⟩ := Client.run_ready hd (Client.opens_of_run h) hn hhello sha1 clientOps
  obtain rfl : u = client := Except.ok.inj (hu.symm.trans h)
  exact ⟨_, hready⟩

/-- its piece manager forgets nothing -/
theorem client_grows {peerIps : List PeerConnInfo} {clientOps : List Client.Op} {client next : Client} {o : Client.Op}
    (hd : metadata.Startable) (hn : peerIps.length ≤ 2 ^ 32)
    (h : Client.run sha1 fs metadata peerIps ourId clientOps = .ok client) (hst : client.step sha1 o = .ok next) :
    client.pieceManager.trace <+: next.pieceManager.trace := by
  obtain ⟨hello, hready⟩ := client_ready hd hn h
  obtain ⟨u, hu, -, heffect⟩ := Client.step_effect hready hd.consistent hd.consistent.small hn o
  obtain rfl : u = next := Except.ok.inj (hu.symm.trans hst)
  exact (heffect.moves hready).trace_grows

/-- when it has begun, nothing is saved -/
theorem new_trace {peerIps : List PeerConnInfo} {client : Client} (hd : metadata.Startable)
    (hn : peerIps.length ≤ 2 ^ 32) (h : Client.new fs metadata peerIps ourId = .ok client) :
    client.pieceManager.trace = [] := by
  have hrun : Client.run id fs metadata peerIps ourId [] = .ok client := by rw [Client.run, h, ok_bind, runM_nil]
  obtain ⟨digest, -, hhello⟩ := hd.hello ourId
  obtain ⟨u, hu, -, hfresh⟩ := Client.new_ready hd (Client.opens_of_run hrun) hn hhello id
  obtain rfl : u = client := Except.ok.inj (hu.symm.trans h)
  exact hfresh.trace

theorem perm_listing (order peerSet : List Bytes) : (listing order peerSet).Perm peerSet := by
  rw [listing]
  split_ifs with h
  · exact List.isPerm_iff.1 h
  · exact List.Perm.refl _

theorem length_httpReplies (trackerUrlList : List Bytes) (http : List HttpReply) :
    (httpReplies trackerUrlList http).length = (trackerUrlList.filter httpPrefix.isPrefixOf).length := by
  rw [httpReplies, List.length_map, List.length_range]

theorem connect_composed {trackers : UdpTrackers} {http : List HttpReply} {order : List Bytes}
    (h : Composed sha1 addressToString fs s.metadata s.ourId (.asking trackers))
    (hs : s.connect addressToString fs trackers http order = .ok t) :
    t.metadata = s.metadata ∧ t.ourId = s.ourId ∧ Composed sha1 addressToString fs s.metadata s.ourId t.phase := by
  cases h with
  | asking ops hops =>
    obtain ⟨tracker, htracker, hs⟩ := bind_eq_ok.1 hs
    obtain ⟨peerIps, hpeers, hs⟩ := bind_eq_ok.1 hs
    obtain ⟨client, hclient, hs⟩ := bind_eq_ok.1 hs
    cases hs
    rw [mapError_eq_ok] at htracker hpeers hclient
    have hex := UdpTrackers.run_exchanged hops
    refine ⟨rfl, rfl, .downloading (trackers.replies.map fun r => some r.2)
      (httpReplies s.metadata.trackerUrlList http) _ [] ?_ (length_httpReplies _ _) ?_ (perm_listing order _) hpeers ?_
      ?_⟩
    · rw [List.length_map]
      exact hex.length_replies
    · rw [Tracker.addPeers, hex.taken]
      exact htracker
    · rw [Client.run, hclient, ok_bind, runM_nil]
    · intro hd hn
      rw [new_trace hd hn hclient]
      rfl

/-- what holds of a run -/
structure Sound (sha1 addressToString : Bytes → Bytes) (fs : FileSystem) (metadata : TorrentMetadata) (ourId : Bytes)
    (s : Program) : Prop where
  parsed : s.metadata = metadata
  id : s.ourId = ourId
  phase : Composed sha1 addressToString fs metadata ourId s.phase

/-- **A step of the client**, or none -/
theorem Composed.step {d next : Download} {o : Client.Op}
    (h : Composed sha1 addressToString fs metadata ourId (.downloading d)) (hs : d.step sha1 o = .ok next) :
    Composed sha1 addressToString fs metadata ourId (.downloading next) := by
  rcases Download.step_eq_ok hs with rfl | ⟨client, hst, rfl⟩
  · exact h
  · cases h with
    | downloading udp http order ops hudp hhttp htracker horder hpeers hclient hcounts =>
      refine .downloading udp http order (ops ++ [o]) hudp hhttp htracker horder hpeers ?_ fun hd hn => ?_
      · obtain ⟨s₀, hs₀, hrun⟩ := bind_eq_ok.1 hclient
        rw [Client.run, hs₀, ok_bind, runM_snoc, hrun, ok_bind]
        exact hst
      · rw [hcounts hd hn]
        exact Statistics.foldl_saveCalls (client_grows hd hn hclient hst) _

theorem step_sound {o : Op} (h : s.Sound sha1 addressToString fs metadata ourId)
    (hs : s.step sha1 addressToString fs o = .ok t) : t.Sound sha1 addressToString fs metadata ourId := by
  obtain ⟨rfl, rfl, hphase⟩ := h
  cases o with
  | exchange i o =>
    rw [step] at hs
    split at hs
    · rename_i trackers hasking
      obtain ⟨next, hnext, hs⟩ := bind_eq_ok.1 hs
      cases hs
      rw [hasking] at hphase
      cases hphase with
      | asking ops hops =>
        refine ⟨rfl, rfl, .asking (ops ++ [(i, o)]) ?_⟩
        rw [runM_snoc, hops, ok_bind]
        exact mapError_eq_ok.1 hnext
    · cases hs
      exact ⟨rfl, rfl, hphase⟩
  | returned http order =>
    rw [step] at hs
    split at hs
    · rename_i trackers hasking
      split_ifs at hs
      · rw [hasking] at hphase
        obtain ⟨hmetadata, hid, hnext⟩ := connect_composed hphase hs
        exact ⟨hmetadata, hid, hnext⟩
      · cases hs
        exact ⟨rfl, rfl, hphase⟩
    · cases hs
      exact ⟨rfl, rfl, hphase⟩
  | client o =>
    rw [step] at hs
    split at hs
    · cases hs
      exact ⟨rfl, rfl, hphase⟩
    · rename_i d hdown
      obtain ⟨next, hnext, hs⟩ := bind_eq_ok.1 hs
      cases hs
      exact ⟨rfl, rfl, Composed.step (hdown ▸ hphase) hnext⟩
  | draw elapsedTime =>
    rw [step] at hs
    split at hs
    · cases hs
      exact ⟨rfl, rfl, hphase⟩
    · rename_i d hdown
      obtain ⟨next, hnext, hs⟩ := bind_eq_ok.1 hs
      cases hs
      obtain ⟨drawer, rfl⟩ := Download.drawProgress_eq_ok hnext
      rw [hdown] at hphase
      cases hphase with
      | downloading udp http order ops hudp hhttp htracker horder hpeers hclient hcounts =>
        exact ⟨rfl, rfl, .downloading udp http order ops hudp hhttp htracker horder hpeers hclient hcounts⟩

variable (addressToString fs ourId) in
theorem new_sound (hfile : Parser.parseTorrentFile sha1 file = .ok metadata) :
    ∃ s₀, new sha1 file ourId = .ok s₀ ∧ s₀.Sound sha1 addressToString fs metadata ourId := by
  refine ⟨⟨metadata, ourId, .asking (.new metadata.trackerUrlList metadata.infoHash ourId)⟩, ?_, rfl, rfl,
    .asking [] rfl⟩
  rw [new, hfile]
  rfl

/-- **Composition.** -/
theorem run_sound (hfile : Parser.parseTorrentFile sha1 file = .ok metadata)
    (h : run sha1 addressToString fs file ourId ops = .ok s) : s.Sound sha1 addressToString fs metadata ourId := by
  obtain ⟨s₀, hs₀, hsound⟩ := new_sound addressToString fs ourId hfile
  rw [run, hs₀, ok_bind] at h
  exact runM_inv (P := fun _ => True) (fun _ _ _ hu _ hv => step_sound hu hv) hsound (fun _ _ => trivial) h

/-! ## Which addresses are connected to -/

theorem getPeers_listed {tracker : Tracker} {peerIps : List PeerConnInfo} {order : List Bytes}
    (h : tracker.Recorded) (horder : order.Perm tracker.peerSet) (hpeers : getPeers order = .ok peerIps)
    {address : PeerConnInfo} (haddress : address ∈ peerIps) :
    ∃ e ∈ tracker.inserted, splitConnString (connString e.1 e.2) = .ok address := by
  obtain ⟨c, hc, hsplit⟩ := (mem_mapM hpeers address).1 haddress
  obtain ⟨e, he, rfl⟩ := (h.mem_order horder c).1 hc
  exact ⟨e, he, hsplit⟩

/-- without colons, what can be listed survives -/
theorem getPeers_survive {tracker : Tracker} {peerIps : List PeerConnInfo} {order : List Bytes}
    (h : tracker.Recorded) (horder : order.Perm tracker.peerSet) (hpeers : getPeers order = .ok peerIps)
    (hcolon : ∀ e ∈ tracker.inserted, colon ∉ e.1) : tracker.Survive order := by
  refine h.survive horder fun e he => ?_
  have hc : connString e.1 e.2 ∈ order := (h.mem_order horder _).2 ⟨e, he, rfl⟩
  obtain ⟨address, haddress⟩ := exists_of_mapM hpeers hc
  obtain ⟨hlow, hhigh, -⟩ := (splitConnString_connString (hcolon e he) e.2 address).1 haddress
  exact ⟨hcolon e he, hlow, hhigh⟩

/-- **The program connects to what trackers listed**, whatever they and the peers send: each peer has the address that
some inserted pair spells. If no address has a colon in it, this is the pair itself, and none is connected to more than
twice. -/
theorem connects_to_listed (sha1 addressToString : Bytes → Bytes) (fs : FileSystem) (file : Bytes)
    (metadata : TorrentMetadata) (hfile : Parser.parseTorrentFile sha1 (some file) = .ok metadata)
    (hc : metadata.Consistent) (ourId : Bytes) (ops : List Op) (s : Program)
    (h : run sha1 addressToString fs (some file) ourId ops = .ok s) (d : Download) (hs : s.phase = .downloading d)
    (hn : d.peerIps.length ≤ 2 ^ 32) :
    (∀ p ∈ d.client.objects, ∃ e ∈ d.tracker.inserted,
      splitConnString (connString e.1 e.2) = .ok p.handle.connInfo) ∧
    ((∀ e ∈ d.tracker.inserted, colon ∉ e.1) →
      (∀ p ∈ d.client.objects, (p.handle.connInfo.ip, (p.handle.connInfo.port : ℤ)) ∈ d.tracker.inserted) ∧
      ∀ address, d.client.pool.created.countP (fun i => d.peerIps[i]? = some address) ≤ 2) := by
  have hphase := (run_sound hfile h).phase
  rw [hs] at hphase
  cases hphase with
  | downloading udp http order ops' hudp hhttp htracker horder hpeers hclient hcounts =>
    have hrec : d.tracker.Recorded :=
      Tracker.addPeers_rule (fun u ip port hu => hu.insertPeer ip port) Tracker.new_recorded htracker
    obtain ⟨hello, hready⟩ := client_ready (Parser.startable hfile hc) hn hclient
    have hparts := hready.parts
    obtain ⟨poolOps, hpool⟩ := hparts.pool
    have hin : ∀ p ∈ d.client.objects, p.handle.connInfo ∈ d.peerIps := by
      intro p hp
      refine (PeerManager.run_listed hpool).peers _ ?_
      rw [← hparts.handles]
      exact List.mem_map_of_mem hp
    refine ⟨fun p hp => getPeers_listed hrec horder hpeers (hin p hp), fun hcolon => ?_⟩
    obtain ⟨res, hres, hnodup, hback⟩ := getPeers_survive hrec horder hpeers hcolon
    obtain rfl : d.peerIps = res := Except.ok.inj (hpeers.symm.trans hres)
    exact ⟨fun p hp => ((hback _ _).1 (hin p hp)).1, (hparts.books hn).1.connections hnodup⟩

/-- a torrent with one file of one byte, and one tracker -/
def oneTracker : Bencode :=
  .dict [(announceKey, .string UdpTrackers.oneUrl), (infoKey, .dict [(lengthKey, .integer 1), (nameKey, .string [97]),
    (pieceLengthKey, .integer 1), (piecesKey, .string (List.replicate 20 0))])]

def single : TorrentMetadata where
  trackerUrlList := [UdpTrackers.oneUrl]
  pieceHashes := [List.replicate 20 0]
  pieceLength := 1
  totalLength := 1
  outputPath := [97]
  infoHash := checksumFinal Client.zeros []
  files := []

theorem parse_oneTracker : Parser.parseTorrentFile Client.zeros (some (Bencode.encode oneTracker)) = .ok single := by
  have hsorted : Bencode.Sorted oneTracker := by
    simp only [oneTracker, Bencode.Sorted, Bencode.SortedDict, and_true, true_and]
    decide
  have haccepted : (Bencode.spell oneTracker).Accepted := by
    simp only [oneTracker, Bencode.spell, Bencode.spellDict, Bencode.spellInteger, Bencode.Spelling.Accepted,
      Bencode.Fields.Accepted, Bencode.Chars.Accepted, and_true]
    decide
  have hdecode := Bencode.decode_encode hsorted haccepted []
  rw [List.append_nil] at hdecode
  rw [Parser.parseTorrentFile, hdecode]
  rfl

theorem single_consistent : single.Consistent :=
  ⟨by decide, by decide, by decide, by decide, fun h => absurd rfl h⟩

/-- the tracker names one peer, and the client starts -/
def oneConnection : List Op :=
  (UdpTrackers.oneExchange.map fun o => .exchange o.1 o.2) ++ [.returned [] [], .client (.poolLoop [])]

theorem run_oneConnection : ∃ s d, run Client.zeros dotted .plain (some (Bencode.encode oneTracker))
    UdpTracker.letters oneConnection = .ok s ∧ s.phase = .downloading d ∧
      d.peerIps = [⟨dotted [1, 2, 3, 4], 80⟩] := by
  have hnew : new Client.zeros (some (Bencode.encode oneTracker)) UdpTracker.letters = .ok ⟨single, UdpTracker.letters,
      .asking (.new single.trackerUrlList single.infoHash UdpTracker.letters)⟩ := by
    rw [new, parse_oneTracker]
    rfl
  have hrun : (runM (step Client.zeros dotted .plain) ⟨single, UdpTracker.letters,
      .asking (.new single.trackerUrlList single.infoHash UdpTracker.letters)⟩ oneConnection).toOption.bind
        (·.phase.addresses) = some [⟨dotted [1, 2, 3, 4], 80⟩] := by decide +kernel
  obtain ⟨s, hs, haddresses⟩ := Option.bind_eq_some_iff.1 hrun
  rw [toOption_eq_some] at hs
  cases hphase : s.phase with
  | asking trackers =>
    rw [hphase] at haddresses
    cases haddresses
  | downloading d =>
    rw [hphase] at haddresses
    exact ⟨s, d, by rw [run, hnew, ok_bind, hs], hphase, Option.some.inj haddresses⟩

theorem connects_to_listed_one : ∃ s d, run Client.zeros dotted .plain (some (Bencode.encode oneTracker))
    UdpTracker.letters oneConnection = .ok s ∧ s.phase = .downloading d ∧
    (∀ p ∈ d.client.objects, ∃ e ∈ d.tracker.inserted,
      splitConnString (connString e.1 e.2) = .ok p.handle.connInfo) ∧
    ((∀ e ∈ d.tracker.inserted, colon ∉ e.1) →
      (∀ p ∈ d.client.objects, (p.handle.connInfo.ip, (p.handle.connInfo.port : ℤ)) ∈ d.tracker.inserted) ∧
      ∀ address, d.client.pool.created.countP (fun i => d.peerIps[i]? = some address) ≤ 2) := by
  obtain ⟨s, d, hs, hphase, haddresses⟩ := run_oneConnection
  exact ⟨s, d, hs, hphase, connects_to_listed Client.zeros dotted .plain _ single parse_oneTracker
    single_consistent UdpTracker.letters oneConnection s hs d hphase (by rw [haddresses]; decide)⟩

/-! ## With UDP trackers only -/

section Peers

variable {u v : Tracker} {trackers : UdpTrackers} {exchanges : List (ℕ × Receipt)} {infoHash : Bytes}

theorem insertPeer_length (ip : Bytes) (port : ℤ) : (u.insertPeer ip port).peerSet.length ≤ u.peerSet.length + 1 := by
  simp only [Tracker.insertPeer]
  split_ifs <;> simp

theorem addRecords_length {buffer : Bytes} {count off : ℕ}
    (h : u.addRecords addressToString buffer count off = .ok v) : v.peerSet.length ≤ u.peerSet.length + count := by
  induction count generalizing u off with
  | zero =>
    cases h
    exact le_rfl
  | succ count ih =>
    rw [Tracker.addRecords] at h
    split_ifs at h
    have hrest := ih h
    have hone := insertPeer_length (u := u) (addressToString ((buffer.drop off).take 4))
      (Tracker.readUint16 buffer (off + 4))
    omega

/-- a datagram of 2048 bytes has room for 338 peers -/
theorem handleAnnounceResponse_length {reply : UdpReply} {r : Option Tracker}
    (h : u.handleAnnounceResponse addressToString reply = .ok r) :
    (r.getD u).peerSet.length ≤ u.peerSet.length + 338 := by
  by_cases hheader : Tracker.Header Tracker.announceAction reply.transactionId (Tracker.announceBuffer reply)
  · have hlen : 20 ≤ (Tracker.received reply).length := by
      by_contra hshort
      rw [Tracker.handleAnnounceResponse_error (by omega) hheader] at h
      cases h
    have hle := Tracker.length_received reply
    rw [Tracker.handleAnnounceResponse_eq, if_pos hheader, Tracker.numPeers_of_le hlen hle] at h
    cases hv : u.addRecords addressToString (Tracker.announceBuffer reply)
        (((Tracker.received reply).length - 20) / 6) 20 with
    | error e =>
      rw [hv] at h
      cases h
    | ok v =>
      rw [hv] at h
      cases h
      have hcount := addRecords_length hv
      rw [Option.getD_some]
      omega
  · rw [Tracker.handleAnnounceResponse_eq, if_neg hheader] at h
    cases h
    exact Nat.le_add_right _ _

theorem addUdpPeers_length {udp : List (Option UdpReply)} (h : u.addUdpPeers addressToString udp = .ok v) :
    v.peerSet.length ≤ u.peerSet.length + 338 * udp.length := by
  induction udp generalizing u with
  | nil =>
    cases h
    exact le_rfl
  | cons reply udp ih =>
    rw [List.length_cons]
    cases reply with
    | none =>
      have hrest := ih h
      omega
    | some reply =>
      obtain ⟨r, hr, h⟩ := bind_eq_ok.1 h
      have hrest := ih h
      have hone := handleAnnounceResponse_length hr
      omega

/-- without HTTP trackers there are so many peers, and all of them come back -/
theorem addPeers_udp {udp : List (Option UdpReply)} (hcolon : ∀ bytes, colon ∉ addressToString bytes)
    (h : Tracker.addPeers addressToString udp [] = .ok u) :
    u.peerSet.length ≤ 338 * udp.length ∧ ∀ order : List Bytes, order.Perm u.peerSet → u.Survive order := by
  have hrec : u.Recorded := Tracker.addPeers_rule (fun u ip port hu => hu.insertPeer ip port) Tracker.new_recorded h
  have hudp : Tracker.new.addUdpPeers addressToString udp = .ok u := by
    obtain ⟨v, hv, h⟩ := bind_eq_ok.1 h
    rw [mapError_eq_ok] at hv
    simp only [Tracker.addHttpPeers] at h
    split_ifs at h <;> · cases h; exact hv
  have hrep : ∀ e ∈ u.inserted, Representable e := by
    refine Tracker.addUdpPeers_rule (P := fun u => ∀ e ∈ u.inserted, Representable e) ?_ (by simp [Tracker.new]) hudp
    intro u bytes k hk hu e he
    rcases List.mem_append.1 he with he | he
    · exact hu e he
    · rw [List.mem_singleton.1 he]
      exact ⟨hcolon bytes, by simp, by simp only; omega⟩
  have hlen := addUdpPeers_length hudp
  rw [Tracker.new, List.length_nil, Nat.zero_add] at hlen
  exact ⟨hlen, fun order horder => hrec.survive horder hrep⟩

end Peers

/-- UDP trackers, and not too many of them -/
structure UdpOnly (metadata : TorrentMetadata) : Prop where
  http : metadata.trackerUrlList.filter httpPrefix.isPrefixOf = []
  few : metadata.trackerUrlList.length ≤ 2 ^ 23

theorem length_getPeers {order : List Bytes} {peerIps : List PeerConnInfo} (h : getPeers order = .ok peerIps) :
    peerIps.length = order.length := (mapM_eq_ok.1 h).length_eq.symm

/-- the ids of the peers are different -/
theorem Composed.few {d : Download} (hudp : UdpOnly metadata) (hcolon : ∀ bytes, colon ∉ addressToString bytes)
    (h : Composed sha1 addressToString fs metadata ourId (.downloading d)) : d.peerIps.length ≤ 2 ^ 32 := by
  cases h with
  | downloading udp http order ops hlen hhttp htracker horder hpeers hclient hcounts =>
    rw [hudp.http, List.length_nil, List.length_eq_zero_iff] at hhttp
    subst hhttp
    have hcount := (addPeers_udp hcolon htracker).1
    have hfew := hudp.few
    rw [length_getPeers hpeers, horder.length_eq]
    omega

/-- the client is started exactly if the files can be opened -/
theorem connect_fault_iff {trackers : UdpTrackers} (hd : metadata.Startable) (hudp : UdpOnly metadata)
    (hcolon : ∀ bytes, colon ∉ addressToString bytes) (h : s.Sound sha1 addressToString fs metadata ourId)
    (hs : s.phase = .asking trackers) (http : List HttpReply) (order : List Bytes) :
    (∃ f, s.connect addressToString fs trackers http order = .error f) ↔ ¬ fs.Opens metadata := by
  obtain ⟨rfl, rfl, hphase⟩ := h
  rw [hs] at hphase
  cases hphase with
  | asking ops hops =>
    have hex := UdpTrackers.run_exchanged hops
    have hnone : httpReplies s.metadata.trackerUrlList http = [] := by rw [httpReplies, hudp.http]; rfl
    have htracker : trackers.addPeers addressToString [] = .ok trackers.tracker := by
      rw [UdpTrackers.addPeers]
      split_ifs <;> rfl
    have hadd : Tracker.addPeers addressToString (trackers.replies.map fun r => some r.2) [] =
        .ok trackers.tracker := by
      rw [Tracker.addPeers, hex.taken]
      exact htracker
    obtain ⟨hcount, hsurvive⟩ := addPeers_udp hcolon hadd
    have hperm := perm_listing order trackers.tracker.peerSet
    obtain ⟨peerIps, hpeers, -⟩ := hsurvive _ hperm
    have hlen := length_getPeers hpeers
    rw [hperm.length_eq] at hlen
    rw [List.length_map] at hcount
    have hreplies := hex.length_replies
    have hfew := hudp.few
    have hn : peerIps.length ≤ 2 ^ 32 := by omega
    rw [connect]
    simp only [hnone, htracker, Except.mapError, ok_bind, hpeers]
    by_cases hopens : fs.Opens s.metadata
    · obtain ⟨digest, -, hhello⟩ := hd.hello s.ourId
      obtain ⟨client, hclient, -⟩ := Client.new_ready hd hopens hn hhello sha1
      simp [hclient, hopens]
    · simp [Client.new_of_not_opens hopens, hopens]

/-- the client goes on -/
theorem client_total {d : Download} (hd : metadata.Startable) (hn : d.peerIps.length ≤ 2 ^ 32)
    (h : Composed sha1 addressToString fs metadata ourId (.downloading d)) (o : Client.Op) :
    ∃ next, d.step sha1 o = .ok next := by
  cases h with
  | downloading udp http order ops hudp hhttp htracker horder hpeers hclient hcounts =>
    obtain ⟨hello, hready⟩ := client_ready hd hn hclient
    obtain ⟨client, hst, -⟩ := Client.step_effect hready hd.consistent hd.consistent.small hn o
    rw [Download.step, hst]
    split_ifs
    · exact ⟨d, rfl⟩
    · exact ⟨_, rfl⟩

/-- the bytes of the pieces that are completed, each counted at full length -/
def completedBytes (metadata : TorrentMetadata) (d : Download) : ℕ :=
  metadata.pieceLength * d.client.pieceManager.numPiecesCompleted

/-- the display counts them -/
theorem Composed.completedBytes {d : Download} (hd : metadata.Startable) (hn : d.peerIps.length ≤ 2 ^ 32)
    (h : Composed sha1 addressToString fs metadata ourId (.downloading d)) :
    d.statistics.completedBytes = completedBytes metadata d := by
  cases h with
  | downloading udp http order ops hudp hhttp htracker horder hpeers hclient hcounts =>
    obtain ⟨hello, hready⟩ := client_ready hd hn hclient
    have hcount := Statistics.toNat_completedPieces_watch hready.parts.inv.1
    have hlen : (Statistics.startDownload metadata).pieceLength.toNat = metadata.pieceLength :=
      UInt32.toNat_ofNat_of_lt' hd.consistent.pieceLength_lt
    have hsame := Statistics.pieceLength_watch (Statistics.startDownload metadata) d.client.pieceManager.trace
    rw [Statistics.completedBytes, hcounts hd hn, hsame, hlen]
    exact congrArg (metadata.pieceLength * ·) hcount

/-- what goes wrong in an operation -/
def Broken (fs : FileSystem) (s : Program) : Op → Prop
  -- the reply with which it goes on is truncated
  | .exchange i o => ∃ trackers t transactionId, s.phase = .asking trackers ∧ trackers.udpTrackers[i]? = some t ∧
      t.exchange = .announce transactionId ∧ o.throws = false ∧ UdpTrackers.Truncated ⟨transactionId, o.datagram⟩
  -- a file cannot be opened
  | .returned _ _ => ∃ trackers, s.phase = .asking trackers ∧ trackers.finished = true ∧
      ∃ path ∈ openedPaths s.metadata, fs.file path = none
  | .client _ => False
  -- less than a byte per second, counted in whole kilobytes
  | .draw elapsedTime => ∃ d, s.phase = .downloading d ∧ d.drawer = .sleep ∧ 0 < elapsedTime ∧
      1024 ≤ completedBytes s.metadata d ∧ 1024 * (completedBytes s.metadata d / 1024) < elapsedTime

theorem exchange_fault_iff {digest : Bytes} (h : s.Sound sha1 addressToString fs metadata ourId)
    (hhash : metadata.infoHash = toHexString digest) (hdigest : digest.length = 20) (hid : ourId.length = 20) (i : ℕ)
    (o : Receipt) :
    (∃ f, s.step sha1 addressToString fs (.exchange i o) = .error f) ↔ s.Broken fs (.exchange i o) := by
  cases hs : s.phase with
  | downloading d => simp [step, Broken, hs]
  | asking trackers =>
    have hphase := h.phase
    rw [hs] at hphase
    cases hphase with
    | asking ops hops =>
      have hex := UdpTrackers.run_exchanged hops
      have htrackers := UdpTrackers.step_fault_iff addressToString i o (hex.hash.trans hhash) hdigest (hex.id ▸ hid)
      have hstep : (∃ f, s.step sha1 addressToString fs (.exchange i o) = .error f) ↔
          ∃ f, trackers.step addressToString (i, o) = .error f := by
        cases hnext : trackers.step addressToString (i, o) <;> simp [step, hs, hnext, Except.mapError]
      rw [hstep, htrackers]
      simp only [Broken, hs, Phase.asking.injEq, exists_and_left, exists_eq_left']

section Step

variable (hd : metadata.Startable) (hudp : UdpOnly metadata)
  (hcolon : ∀ bytes, colon ∉ addressToString bytes) (h : s.Sound sha1 addressToString fs metadata ourId)
include hd hudp hcolon h

theorem returned_fault_iff (http : List HttpReply) (order : List Bytes) :
    (∃ f, s.step sha1 addressToString fs (.returned http order) = .error f) ↔ s.Broken fs (.returned http order) := by
  cases hs : s.phase with
  | downloading d => simp [step, Broken, hs]
  | asking trackers =>
    have hconnect := connect_fault_iff hd hudp hcolon h hs http order
    cases hfinished : trackers.finished with
    | false => simp [step, Broken, hs, hfinished]
    | true =>
      simp only [step, hs, hfinished, if_true, hconnect, Broken, Phase.asking.injEq, exists_eq_left', true_and,
        h.parsed, FileSystem.Opens, not_forall, not_not, exists_prop]

theorem client_not_fault (o : Client.Op) : ¬ ∃ f, s.step sha1 addressToString fs (.client o) = .error f := by
  cases hs : s.phase with
  | asking trackers => simp [step, hs]
  | downloading d =>
    have hphase := h.phase
    rw [hs] at hphase
    obtain ⟨next, hnext⟩ := client_total hd (hphase.few hudp hcolon) hphase o
    simp [step, hs, hnext]

theorem draw_fault_iff (elapsedTime : ℤ) :
    (∃ f, s.step sha1 addressToString fs (.draw elapsedTime) = .error f) ↔ s.Broken fs (.draw elapsedTime) := by
  cases hs : s.phase with
  | asking trackers => simp [step, Broken, hs]
  | downloading d =>
    have hphase := h.phase
    rw [hs] at hphase
    have hbytes := hphase.completedBytes hd (hphase.few hudp hcolon)
    have hstep : (∃ f, s.step sha1 addressToString fs (.draw elapsedTime) = .error f) ↔
        ∃ f, d.drawProgress elapsedTime = .error f := by
      cases hdraw : d.drawProgress elapsedTime <;> simp [step, hs, hdraw]
    rw [hstep, Download.drawProgress_fault_iff]
    simp only [Statistics.drawProgress_fault_iff, hbytes, exists_eq_left, Broken, hs, Phase.downloading.injEq,
      exists_eq_left', h.parsed]

/-- **When a step faults** -/
theorem step_fault_iff {digest : Bytes} (hhash : metadata.infoHash = toHexString digest) (hdigest : digest.length = 20)
    (hid : ourId.length = 20) (o : Op) : (∃ f, s.step sha1 addressToString fs o = .error f) ↔ s.Broken fs o := by
  cases o with
  | exchange i o => exact exchange_fault_iff h hhash hdigest hid i o
  | returned http order => exact returned_fault_iff hd hudp hcolon h http order
  | client o => exact iff_of_false (client_not_fault hd hudp hcolon h o) id
  | draw elapsedTime => exact draw_fault_iff hd hudp hcolon h elapsedTime

end Step

end Program

end SimpleTorrent
