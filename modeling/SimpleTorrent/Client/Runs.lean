/-
Runs of the client.

- `opens_of_run`: a client that runs has opened the files of the torrent.
- `run_rule`: with these, no run faults, and what holds at the start and survives every effect holds at the end of every
  run.
- `run_ready`: so do the things that the coroutines rely on. `resume_rule`: the same for a run that is continued.
- `Effect.moves`: what the piece manager does in a step is a sequence of moves of the piece store.
-/
import SimpleTorrent.Client.Steps

namespace SimpleTorrent

open Checked Store MessageUtil

/-- the handshake of the client -/
theorem TorrentMetadata.Startable.hello {data : TorrentMetadata} (h : data.Startable) (ourId : Bytes) :
    ∃ digest, data.infoHash = toHexString digest ∧
      sendHandshake data.infoHash ourId = .ok (createHandshake (List.replicate 8 0) digest ourId) := by
  obtain ⟨digest, hdigest⟩ := h.infoHash
  refine ⟨digest, hdigest, ?_⟩
  rw [sendHandshake, hdigest, hexDecode_toHexString]
  rfl

namespace Client

variable {fs : FileSystem} {data : TorrentMetadata} {peerIps : List PeerConnInfo} {sha1 : Bytes → Bytes}
  {ourId hello : Bytes} {s t : Client} {c : Config}

/-- a client that has not begun -/
structure Fresh (data : TorrentMetadata) (s : Client) : Prop where
  pieceManager : s.pieceManager.peersBitfieldMap = ∅
  trace : s.pieceManager.trace = []
  stopDownload : s.session.stopDownload = false
  poolLoop : s.poolLoop = .created
  infoHash : s.infoHash = data.infoHash
  objects : ∀ p ∈ s.objects, ∃ handle, p = .create handle

/-- the constructor of the file manager throws -/
theorem new_of_not_opens (h : ¬ fs.Opens data) (peerIps : List PeerConnInfo) (ourId : Bytes) :
    new fs data peerIps ourId = .error .fileSystem := by
  rw [new, Session.init, FileManager.new_eq_none.2 h]
  rfl

theorem opens_of_run {ops : List Op} (h : run sha1 fs data peerIps ourId ops = .ok s) : fs.Opens data := by
  by_contra hopens
  rw [run, new_of_not_opens hopens] at h
  cases h

theorem new_ready (hd : data.Startable) (hopens : fs.Opens data) (hn : peerIps.length ≤ 2 ^ 32)
    (hhello : SimpleTorrent.sendHandshake data.infoHash ourId = .ok hello) (sha1 : Bytes → Bytes) :
    ∃ s, new fs data peerIps ourId = .ok s ∧ s.Ready fs hd.consistent.config peerIps sha1 hello ∧ s.Fresh data := by
  obtain ⟨fm, hfm⟩ := Option.ne_none_iff_exists'.1 fun hnone => FileManager.new_eq_none.1 hnone hopens
  have hsession : Session.init fs data = some ⟨fm, false⟩ := Session.init_eq_some.2 ⟨hfm, rfl⟩
  obtain ⟨m, hm, hinv, -⟩ := PieceManager.new_fits hd.consistent.config sha1
  obtain ⟨m', hm', -, hstore, hpeers⟩ := PieceManager.new_spec hd.consistent.config
  obtain rfl : m = m' := Except.ok.inj (hm.symm.trans hm')
  obtain ⟨pool, hpool, -, -⟩ := PeerManager.new_books hn
  have htrace : m.trace = [] := congrArg Store.trace hstore
  have hrun : hd.consistent.config.run sha1 [] = .ok m := by
    rw [Config.run, PieceManager.run, hm]
    rfl
  refine ⟨{
    pieceManager := m, session := ⟨fm, false⟩, pool := pool, objects := pool.peers.map PeerObject.create
    poolLoop := .created, infoHash := data.infoHash, ourId := ourId
    numPieces := data.pieceHashes.length % 2 ^ 32 }, ?_, ⟨?_, rfl, hhello⟩, hpeers, htrace, rfl, rfl, rfl, ?_⟩
  · have hm : PieceManager.new data defaultBlockLength defaultBufferSize = .ok m := hm
    rw [new, hsession, Option.elim_some, ok_bind, access_ok.2 hm, hpool]
    rfl
  · refine ⟨⟨[], by simp, hrun⟩, ⟨_, [], hsession, rfl, ?_⟩, ⟨[], ?_⟩, ?_, ?_, ?_⟩
    · rw [htrace]
      rfl
    · rw [PeerManager.run, hpool]
      rfl
    · intro p hp
      obtain ⟨handle, -, rfl⟩ := List.mem_map.1 hp
      exact ⟨[], rfl⟩
    · rw [List.map_map]
      exact List.map_id pool.peers
    · intro id hid
      rw [hpeers] at hid
      exact absurd (AList.lookup_empty id) hid
  · intro p hp
    obtain ⟨handle, -, rfl⟩ := List.mem_map.1 hp
    exact ⟨handle, rfl⟩

/-- **The rule for runs** from a state in which everything is ready -/
theorem resume_rule (hc : c.data.Consistent) (hsmall : min c.bufferSize.toNat c.numPieces < 2 ^ 31)
    (hn : peerIps.length ≤ 2 ^ 32) {I : Client → Prop} (hs : s.Ready fs c peerIps sha1 hello) (hI : I s)
    (hstep : ∀ u v, u.Ready fs c peerIps sha1 hello → I u → Effect c peerIps sha1 hello u v → I v) (ops : List Op) :
    ∃ t, runM (step sha1) s ops = .ok t ∧ t.Ready fs c peerIps sha1 hello ∧ I t := by
  refine runM_total (P := fun _ => True) (I := fun u => u.Ready fs c peerIps sha1 hello ∧ I u) (fun u o hu _ => ?_)
    ⟨hs, hI⟩ fun _ _ => trivial
  obtain ⟨v, hv, hparts, heffect⟩ := step_effect hu.1 hc hsmall hn o
  exact ⟨v, hv, hu.1.effect hparts heffect, hstep u v hu.1 hu.2 heffect⟩

/-- **The rule for runs** from the start -/
theorem run_rule (hd : data.Startable) (hopens : fs.Opens data) (hn : peerIps.length ≤ 2 ^ 32)
    (hhello : SimpleTorrent.sendHandshake data.infoHash ourId = .ok hello) {I : Client → Prop}
    (hnew : ∀ s : Client, s.Fresh data → I s)
    (hstep : ∀ s t, s.Ready fs hd.consistent.config peerIps sha1 hello → I s →
      Effect hd.consistent.config peerIps sha1 hello s t → I t) (ops : List Op) :
    ∃ s, run sha1 fs data peerIps ourId ops = .ok s ∧ s.Ready fs hd.consistent.config peerIps sha1 hello ∧ I s := by
  obtain ⟨s₀, hs₀, hready, hfresh⟩ := new_ready hd hopens hn hhello sha1
  obtain ⟨t, ht, hrest⟩ := resume_rule (c := hd.consistent.config) hd.consistent hd.consistent.small hn hready
    (hnew s₀ hfresh) hstep ops
  exact ⟨t, by rw [run, hs₀, ok_bind, ht], hrest⟩

theorem run_ready (hd : data.Startable) (hopens : fs.Opens data) (hn : peerIps.length ≤ 2 ^ 32)
    (hhello : SimpleTorrent.sendHandshake data.infoHash ourId = .ok hello) (sha1 : Bytes → Bytes) (ops : List Op) :
    ∃ s, run sha1 fs data peerIps ourId ops = .ok s ∧ s.Ready fs hd.consistent.config peerIps sha1 hello := by
  obtain ⟨s, hs, hready, -⟩ := run_rule (I := fun _ => True) hd hopens hn hhello (fun _ _ => trivial)
    (fun _ _ _ _ _ => trivial) ops
  exact ⟨s, hs, hready⟩

/-! ## The piece manager -/

theorem removePeers_moves {m : PieceManager} (h : m.Shape c) (dropped : List PeerObject) :
    PieceManager.Moves c sha1 m (removePeers m dropped) := by
  induction dropped generalizing m with
  | nil => exact .refl h
  | cons p dropped ih =>
    have hmove : PieceManager.Moves c sha1 m (m.removePeer p.handle.peerNumId) := PieceManager.removePeer_moves h _
    exact hmove.trans (ih hmove.shape)

theorem Effect.moves (h : s.Ready fs c peerIps sha1 hello) (he : Effect c peerIps sha1 hello s t) :
    PieceManager.Moves c sha1 s.pieceManager t.pieceManager := by
  have hshape := h.parts.inv.1.shape
  cases he with
  | peer hlive hp hcalls hgoes hreg => exact hcalls.moves
  | round hlive hcontinue hend => exact removePeers_moves hshape _
  | _ => exact .refl hshape

end Client

end SimpleTorrent
