/-
The parts of the client.

- `Parts`: in the state of a client, the piece manager, the file manager, the pool and the coroutines of each peer are
  each in a state that they reach by calls of their own, and they agree with each other: the queue has what the piece
  manager has saved, the peers are those of the pool, and only they are registered.
- `Parts.call`, `Parts.putObject`: a call of the piece manager, and a step of a peer, keep it.
- `Parts.cleanup`, `Parts.connect`: so do the two halves of a round of the pool.
-/
import SimpleTorrent.Client.Saved
import SimpleTorrent.Properties.Reclaiming
import SimpleTorrent.Properties.Reconnection

namespace SimpleTorrent

open Checked Store MessageUtil

/-! ## Metadata -/

/-- metadata with which the client can be started -/
structure TorrentMetadata.Startable (data : TorrentMetadata) : Prop where
  consistent : data.Consistent
  infoHash : ∃ digest, data.infoHash = toHexString digest

theorem Client.defaultBlockLength_pos : 0 < Client.defaultBlockLength.toNat := by decide

/-- what the client constructs its piece manager from -/
def TorrentMetadata.Consistent.config {data : TorrentMetadata} (h : data.Consistent) : Config :=
  ⟨data, Client.defaultBlockLength, Client.defaultBufferSize, h.pieceLength_pos, h.pieceLength_lt,
    Client.defaultBlockLength_pos⟩

/-- slot numbers fit into an `int` -/
theorem TorrentMetadata.Consistent.small {data : TorrentMetadata} (h : data.Consistent) :
    min h.config.bufferSize.toNat h.config.numPieces < 2 ^ 31 :=
  lt_of_le_of_lt (min_le_left _ _) (by decide : Client.defaultBufferSize.toNat < 2 ^ 31)

/-! ## Runs of the parts -/

/-- calls of `save_piece` and steps of the writer leave the flag alone -/
theorem Session.run_stopDownload {s t : Session} {ops : List Session.Op} (hops : ∀ o ∈ ops, o ≠ .setStopDownload)
    (h : s.run ops = .ok t) : t.stopDownload = s.stopDownload := by
  refine runM_inv (P := fun o => o ≠ .setStopDownload) (I := fun u : Session => u.stopDownload = s.stopDownload)
    (fun u o v hu ho hv => ?_) rfl hops h
  cases o with
  | savePiece fileOffset data =>
    cases hv
    exact hu
  | setStopDownload => exact absurd rfl ho
  | writer =>
    obtain ⟨m, -, hv⟩ := bind_eq_ok.1 hv
    cases hv
    exact hu

theorem PeerManager.run_books {peerIps : List PeerConnInfo} (hn : peerIps.length ≤ 2 ^ 32) {ops : List PeerManager.Op}
    {s : PeerManager} (h : PeerManager.run peerIps ops = .ok s) :
    Books peerIps s s.peers ∧ s.peers.length ≤ maxNumConnectedPeers := by
  obtain ⟨s₀, hs₀, h₀⟩ := new_books hn
  rw [PeerManager.run, hs₀, ok_bind] at h
  refine runM_inv (P := fun _ => True)
    (I := fun u : PeerManager => Books peerIps u u.peers ∧ u.peers.length ≤ maxNumConnectedPeers)
    (fun u o v hu _ hv => ?_) h₀ (fun _ _ => trivial) h
  obtain ⟨v', hv', hbooks, hcap⟩ := step_books hn hu.1 hu.2 o
  obtain rfl : v' = v := Except.ok.inj (hv'.symm.trans hv)
  exact ⟨hbooks, hcap⟩

theorem PieceManager.run_append {c : Config} {sha1 : Bytes → Bytes} {ops ops' : List PieceManager.Op}
    {s t : PieceManager} (h : c.run sha1 ops = .ok s) (ho : runM (PieceManager.step sha1) s ops' = .ok t) :
    c.run sha1 (ops ++ ops') = .ok t := by
  obtain ⟨s₀, hs₀, h⟩ := bind_eq_ok.1 h
  rw [Config.run, PieceManager.run, hs₀, ok_bind, runM_append, h, ok_bind, ho]

theorem Session.run_append {s t u : Session} {ops ops' : List Session.Op} (h : s.run ops = .ok t)
    (h' : t.run ops' = .ok u) : s.run (ops ++ ops') = .ok u := by
  rw [Session.run, runM_append]
  rw [Session.run] at h h'
  rw [h, ok_bind, h']

/-- the calls that a piece manager makes are calls of `save_piece` -/
theorem Client.saveCalls_ne {s t : PieceManager} : ∀ o ∈ Client.saveCalls s t, o ≠ .setStopDownload := by
  intro o ho
  obtain ⟨e, -, he⟩ := List.mem_filterMap.1 ho
  cases e with
  | savePiece x off d =>
    cases he
    simp
  | _ => cases he

/-! ## The client as its parts -/

namespace Client

open PeerManager (ids Books maxNumConnectedPeers)

structure Parts (fs : FileSystem) (c : Config) (peerIps : List PeerConnInfo) (sha1 : Bytes → Bytes) (s : Client) :
    Prop where
  pieceManager : ∃ ops, (∀ o ∈ ops, PieceManager.Op.Fits c o) ∧ c.run sha1 ops = .ok s.pieceManager
  session : ∃ s₀ ops, Session.init fs c.data = some s₀ ∧ s₀.run ops = .ok s.session ∧
    Session.saves ops = savedEntries s.pieceManager.trace
  pool : ∃ ops, PeerManager.run peerIps ops = .ok s.pool
  routines : ∀ p ∈ s.objects, ∃ ops, p.routines = Routines.run ops
  /-- the objects are those of the pool -/
  handles : s.objects.map (·.handle) = s.pool.peers
  /-- who is registered with the piece manager is in the pool -/
  registered : ∀ id, s.pieceManager.peersBitfieldMap.lookup id ≠ none → id ∈ ids s.pool.peers

variable {fs : FileSystem} {c : Config} {peerIps : List PeerConnInfo} {sha1 : Bytes → Bytes} {s t : Client}

theorem Parts.inv (h : s.Parts fs c peerIps sha1) : s.pieceManager.Inv c sha1 ∧ s.pieceManager.Fits c := by
  obtain ⟨ops, hops, hrun⟩ := h.pieceManager
  exact PieceManager.run_fits hops hrun

theorem Parts.books (h : s.Parts fs c peerIps sha1) (hn : peerIps.length ≤ 2 ^ 32) :
    Books peerIps s.pool s.pool.peers ∧ s.pool.peers.length ≤ maxNumConnectedPeers := by
  obtain ⟨ops, hrun⟩ := h.pool
  exact PeerManager.run_books hn hrun

/-- the files, and the queue -/
theorem Parts.disk (h : s.Parts fs c peerIps sha1) (hc : c.data.Consistent) :
    s.session.fileManager.OnDisk ∧ s.session.fileManager.fileLengths = (outputFiles c.data).map (·.fileLength) ∧
      s.session.fileManager.enqueued = savedEntries s.pieceManager.trace ∧
      (Extents.Separate s.session.fileManager.fileLengths s.session.fileManager.openFiles ↔ fs.Separate c.data) := by
  obtain ⟨s₀, ops, hnew, hrun, hsaves⟩ := h.session
  have hm := (Session.init_eq_some.1 hnew).1
  obtain ⟨-, hlens₀⟩ := FileManager.new_openFiles hm
  obtain ⟨t, ht, hdisk, hfiles, hlens, henq⟩ := Session.run_onDisk (FileManager.new_onDisk hm) ops (by
    rw [hsaves, hlens₀]
    exact h.inv.1.savedEntries_inRange hc)
  obtain rfl : t = s.session := Except.ok.inj (ht.symm.trans hrun)
  exact ⟨hdisk, hlens.trans hlens₀, by rw [henq, hsaves, Session.init_enqueued hnew, List.nil_append],
    by rw [hlens, hfiles, FileManager.new_separate hm]⟩

theorem Parts.length_objects (h : s.Parts fs c peerIps sha1) : s.objects.length = s.pool.peers.length := by
  rw [← h.handles, List.length_map]

/-- an object has its id in the pool -/
theorem Parts.mem_ids (h : s.Parts fs c peerIps sha1) {p : PeerObject} (hp : p ∈ s.objects) :
    p.handle.peerNumId ∈ ids s.pool.peers := by
  rw [← h.handles]
  exact List.mem_map_of_mem (List.mem_map_of_mem hp)

/-! ## Steps of the network thread -/

/-- the piece manager was called, and has saved what it has; nothing else has changed -/
structure Calls (c : Config) (sha1 : Bytes → Bytes) (s t : Client) : Prop where
  frame : t = { s with pieceManager := t.pieceManager, session := t.session }
  stopDownload : t.session.stopDownload = s.session.stopDownload
  moves : PieceManager.Moves c sha1 s.pieceManager t.pieceManager

theorem Parts.calls_refl (h : s.Parts fs c peerIps sha1) : Calls c sha1 s s := ⟨rfl, rfl, .refl h.inv.1.shape⟩

/-- **A call of the piece manager**, with what it saves -/
theorem Parts.call (h : s.Parts fs c peerIps sha1) (hc : c.data.Consistent) {o : PieceManager.Op}
    (ho : PieceManager.Op.Fits c o) {m : PieceManager} (hm : PieceManager.step sha1 s.pieceManager o = .ok m)
    (hreg : ∀ id, m.peersBitfieldMap.lookup id ≠ none → id ∈ ids s.pool.peers) :
    ∃ t, s.putManager m = .ok t ∧ t.Parts fs c peerIps sha1 ∧ Calls c sha1 s t ∧ t.pieceManager = m := by
  obtain ⟨pre, hpre, hrun⟩ := h.pieceManager
  have hall : ∀ o' ∈ pre ++ [o], PieceManager.Op.Fits c o' := by
    intro o' ho'
    rcases List.mem_append.1 ho' with ho' | ho'
    · exact hpre o' ho'
    · exact List.mem_singleton.1 ho' ▸ ho
  have hone : runM (PieceManager.step sha1) s.pieceManager [o] = .ok m := by rw [runM_cons, hm, ok_bind, runM_nil]
  have hrun' := PieceManager.run_append hrun hone
  have hinv := (PieceManager.run_fits hall hrun').1
  have hmoves := PieceManager.run_append_moves (fun o ho => (hall o ho).narrow) hrun hrun'
  have hsaves := saves_saveCalls hmoves.trace_grows
  obtain ⟨hdisk, hlens, -, -⟩ := h.disk hc
  obtain ⟨u, hu, -⟩ := Session.run_onDisk hdisk (saveCalls s.pieceManager m) (by
    intro value hv
    rw [hlens]
    exact hinv.savedEntries_inRange hc value (hsaves ▸ List.mem_append_right _ hv))
  obtain ⟨s₀, sops, hnew, hsops, hsame⟩ := h.session
  have hcalls := Session.run_stopDownload saveCalls_ne hu
  refine ⟨{ s with pieceManager := m, session := u }, ?_, ?_, ⟨rfl, hcalls, hmoves⟩, rfl⟩
  · rw [putManager, access_ok.2 hu]
    rfl
  · refine { h with
      pieceManager := ⟨_, hall, hrun'⟩
      session := ⟨s₀, _, hnew, Session.run_append hsops hu, ?_⟩
      registered := hreg }
    rw [hsaves, ← hsame]
    exact List.filterMap_append

/-- **A step of a peer** -/
theorem Parts.putObject (h : s.Parts fs c peerIps sha1) {i : ℕ} {p p' : PeerObject} (hp : s.objects[i]? = some p)
    (hhandle : p'.handle = p.handle) (hroutines : ∃ o, p'.routines = p.routines.step o) :
    (s.putObject i p').Parts fs c peerIps sha1 := by
  refine { h with routines := ?_, handles := ?_ }
  · intro q hq
    rcases List.mem_or_eq_of_mem_set hq with hq | rfl
    · exact h.routines q hq
    · obtain ⟨o, ho⟩ := hroutines
      obtain ⟨ops, hops⟩ := h.routines p (List.mem_of_getElem? hp)
      exact ⟨ops ++ [o], by rw [ho, hops, Routines.run, Routines.run, List.foldl_concat]⟩
  · obtain ⟨hi, hget⟩ := List.getElem?_eq_some_iff.1 hp
    have hlt : i < (s.objects.map (·.handle)).length := by rwa [List.length_map]
    have hsame : p'.handle = (s.objects.map (·.handle))[i] := by rw [List.getElem_map, hget, hhandle]
    rw [Client.putObject, List.map_set, hsame, List.set_getElem_self, h.handles]

/-! ## Rounds of the pool -/

theorem filterMap_range {α : Type} (l : List α) : ((List.range l.length).filterMap fun i => l[i]?) = l := by
  induction l using List.reverseRecOn with
  | nil => rfl
  | append_singleton l a ih =>
    have hpre : ((List.range l.length).filterMap fun i => (l ++ [a])[i]?) = l := by
      refine Eq.trans (List.filterMap_congr fun i hi => ?_) ih
      exact List.getElem?_append_left (List.mem_range.1 hi)
    rw [List.length_append, List.length_singleton, List.range_succ, List.filterMap_append, hpre]
    simp

/-- the peers are rearranged, and divided -/
theorem arrange_perm (s : Client) (order : List ℕ) : ((s.arrange order).1 ++ (s.arrange order).2).Perm s.objects := by
  have harranged : (if order.isPerm (List.range s.objects.length) then order.filterMap fun i => s.objects[i]?
      else s.objects).Perm s.objects := by
    split_ifs with hp
    · have := (List.isPerm_iff.1 hp).filterMap fun i => s.objects[i]?
      rwa [filterMap_range] at this
    · exact .refl _
  refine List.Perm.trans ?_ harranged
  simp only [arrange]
  have hsplit := List.filter_append_perm (fun p : PeerObject => !p.routines.hasExited)
    (if order.isPerm (List.range s.objects.length) then order.filterMap fun i => s.objects[i]? else s.objects)
  simpa only [Bool.not_not] using hsplit

/-- `remove_peer` for each of the dropped peers -/
def removePeers (m : PieceManager) (dropped : List PeerObject) : PieceManager :=
  dropped.foldl (fun m p => m.removePeer p.handle.peerNumId) m

/-- the same as a run -/
theorem runM_removePeers (m : PieceManager) (dropped : List PeerObject) :
    runM (PieceManager.step sha1) m (dropped.map fun p => .removePeer p.handle.peerNumId) =
      .ok (removePeers m dropped) := by
  induction dropped generalizing m with
  | nil => rfl
  | cons p dropped ih =>
    rw [List.map_cons, runM_cons, PieceManager.step, ok_bind, ih]
    rfl

theorem removePeers_trace (m : PieceManager) (dropped : List PeerObject) : (removePeers m dropped).trace = m.trace := by
  induction dropped generalizing m with
  | nil => rfl
  | cons p dropped ih => exact ih _

/-- what is left are registrations of others -/
theorem lookup_removePeers {m : PieceManager} {dropped : List PeerObject} {id : ℕ}
    (h : (removePeers m dropped).peersBitfieldMap.lookup id ≠ none) :
    m.peersBitfieldMap.lookup id ≠ none ∧ id ∉ ids (dropped.map (·.handle)) := by
  induction dropped generalizing m with
  | nil => exact ⟨h, List.not_mem_nil⟩
  | cons p dropped ih =>
    obtain ⟨hm, hid⟩ := ih h
    simp only [PieceManager.removePeer, lookup_erase_eq] at hm
    split_ifs at hm with hp
    · exact absurd rfl hm
    · exact ⟨hm, fun hmem => (List.mem_cons.1 hmem).elim hp hid⟩

/-- **`cleanup_connections`** drops the peers that have exited, and their registrations. -/
theorem Parts.cleanup (h : s.Parts fs c peerIps sha1) (hn : peerIps.length ≤ 2 ^ 32) (order : List ℕ) :
    ∃ pool, s.cleanupConnections order = .ok { s with
        pieceManager := removePeers s.pieceManager (s.arrange order).2, pool := pool, objects := (s.arrange order).1 } ∧
      Parts fs c peerIps sha1 { s with
        pieceManager := removePeers s.pieceManager (s.arrange order).2, pool := pool
        objects := (s.arrange order).1 } := by
  have hperm := s.arrange_perm order
  have hhandles : ((s.arrange order).1.map (·.handle) ++ (s.arrange order).2.map (·.handle)).Perm s.pool.peers := by
    rw [← List.map_append, ← h.handles]
    exact hperm.map _
  obtain ⟨pool, hpool, -, hpeers, -⟩ := PeerManager.cleanupConnections_books (h.books hn).1 hhandles
  refine ⟨pool, ?_, ?_⟩
  · simp only [cleanupConnections, hpool]
    rfl
  · obtain ⟨pre, hpre, hrun⟩ := h.pieceManager
    obtain ⟨s₀, sops, hnew, hsops, hsaves⟩ := h.session
    obtain ⟨pops, hpops⟩ := h.pool
    have hcleanup : PeerManager.run peerIps (pops ++
        [.cleanup ((s.arrange order).1.map (·.handle)) ((s.arrange order).2.map (·.handle))]) = .ok pool := by
      rw [PeerManager.run_snoc, hpops, ok_bind, PeerManager.step, hpool]
    refine ⟨⟨_, ?_, PieceManager.run_append hrun (runM_removePeers s.pieceManager (s.arrange order).2)⟩,
      ⟨s₀, sops, hnew, hsops, ?_⟩, ⟨_, hcleanup⟩, ?_, hpeers.symm, ?_⟩
    · intro o ho
      rcases List.mem_append.1 ho with ho | ho
      · exact hpre o ho
      · obtain ⟨p, -, rfl⟩ := List.mem_map.1 ho
        trivial
    · rw [removePeers_trace]
      exact hsaves
    · intro p hp
      exact h.routines p (hperm.subset (List.mem_append_left _ hp))
    · intro id hid
      obtain ⟨hid, hnot⟩ := lookup_removePeers hid
      have hmem := ((hhandles.map (·.peerNumId)).mem_iff).2 (h.registered id hid)
      rw [List.map_append, List.mem_append] at hmem
      rw [hpeers]
      exact hmem.resolve_right hnot

/-- **`open_connections`** adds objects for the addresses that it tries. -/
theorem Parts.connect (h : s.Parts fs c peerIps sha1) (hn : peerIps.length ≤ 2 ^ 32) :
    ∃ (pool : PeerManager) (new : List PeerHandle),
      s.openConnections = .ok { s with pool := pool, objects := s.objects ++ new.map PeerObject.create } ∧
      Parts fs c peerIps sha1 { s with pool := pool, objects := s.objects ++ new.map PeerObject.create } ∧
      (s.objects ++ new.map PeerObject.create = [] →
        ∀ i < peerIps.length, pool.peersState[i]? = some .disconnected2) := by
  obtain ⟨hbooks, hcap⟩ := h.books hn
  obtain ⟨pool, hpool, -, -, hend⟩ := PeerManager.openConnections_books hn hbooks hcap
  obtain ⟨new, hnew⟩ : s.pool.peers <+: pool.peers := by
    refine PeerManager.openPeers_rule (P := fun u => s.pool.peers <+: u.peers) (fun u v htry hu => ?_)
      (List.prefix_refl _) hpool
    cases htry
    exact hu.trans (List.prefix_append _ _)
  have hobjects : (pool.peers.drop s.objects.length).map PeerObject.create = new.map PeerObject.create := by
    rw [h.length_objects, ← hnew, List.drop_left]
  have hhandles : (s.objects ++ new.map PeerObject.create).map (·.handle) = pool.peers := by
    rw [List.map_append, List.map_map, h.handles, ← hnew]
    congr 1
    exact List.map_id new
  refine ⟨pool, new, ?_, ?_, ?_⟩
  · rw [openConnections, hpool, ← hobjects]
    rfl
  · obtain ⟨pops, hpops⟩ := h.pool
    refine { h with pool := ⟨pops ++ [.open_], ?_⟩, routines := ?_, handles := hhandles, registered := ?_ }
    · rw [PeerManager.run_snoc, hpops, ok_bind, PeerManager.step, hpool]
    · intro p hp
      rcases List.mem_append.1 hp with hp | hp
      · exact h.routines p hp
      · obtain ⟨handle, -, rfl⟩ := List.mem_map.1 hp
        exact ⟨[], rfl⟩
    · intro id hid
      have hmem := h.registered id hid
      rw [← hnew, PeerManager.ids_append]
      exact List.mem_append_left _ hmem
  · intro hnil
    apply hend
    rw [← hhandles, hnil]
    rfl

end Client

end SimpleTorrent
