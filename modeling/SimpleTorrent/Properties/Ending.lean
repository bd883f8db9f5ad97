/-
The client ends.

- `Effect.continueDownload`: once there is no reason to go on, there never is one again.
- `ends`: from any state with no reason to go on, one step of the pool, the return of `start` and three steps of the
  writer end both threads, in this order, whatever the peers do before, between and after. The premise is that these
  steps are taken: timers expire, and the writer is scheduled.
-/
import SimpleTorrent.Properties.Download
import SimpleTorrent.Properties.Shutdown

namespace SimpleTorrent

open Checked Store MessageUtil

namespace Client

variable {fs : FileSystem} {data : TorrentMetadata} {peerIps : List PeerConnInfo} {sha1 : Bytes → Bytes}
  {ourId hello : Bytes} {s t : Client} {c : Config}

/-! ## What stays -/

theorem Effect.continueDownload (hr : s.Ready fs c peerIps sha1 hello) (he : Effect c peerIps sha1 hello s t)
    (h : s.continueDownload = false) : t.continueDownload = false := by
  rw [continueDownload_eq_false] at h ⊢
  rcases h with hstop | hcomplete
  · left
    cases he with
    | @peer i p p' u hlive hp hcalls hgoes hreg => exact hcalls.stopDownload.trans hstop
    | round hlive hcontinue hend => exact Bool.or_eq_true_iff.2 (Or.inl hstop)
    | returned hended => rfl
    | writer hsame => exact hsame.trans hstop
    | _ => exact hstop
  · exact Or.inr ((he.moves hr).complete hr.parts.inv.1 hcomplete)

/-- the pool has ended for good -/
theorem Effect.ended (he : Effect c peerIps sha1 hello s t) (h : s.poolLoop = .ended) : t.poolLoop = .ended := by
  cases he with
  | peer hlive hp hcalls hgoes hreg => exact absurd h hlive
  | test hlive hnext => exact absurd h hlive
  | round hlive hcontinue hend => exact absurd h hlive
  | _ => exact h

/-! ## The last steps -/

/-- the step of the pool that finds no reason to go on -/
theorem cleanupAndOpenConnections_ends (h : s.continueDownload = false) (order : List ℕ) :
    s.cleanupAndOpenConnections order = .ok { s with poolLoop := .ended } := by
  cases hloop : s.poolLoop with
  | created | sleepAfter =>
    simp only [cleanupAndOpenConnections, hloop, testPoolLoop, h]
    rfl
  | sleepBefore =>
    simp only [cleanupAndOpenConnections, hloop, h]
    rfl
  | ended =>
    simp only [cleanupAndOpenConnections, hloop]
    rw [← hloop]

/-- the network thread has ended, and the flag is set -/
structure Stopped (s : Client) : Prop where
  ended : s.poolLoop = .ended
  stopDownload : s.session.stopDownload = true

/-- then only the writer changes anything, and comes nearer to its end -/
theorem Stopped.keeps (h : s.Stopped) {o : Op} (hst : step sha1 s o = .ok t) :
    t.Stopped ∧ t.session.rank ≤ s.session.rank - [o].count .writer := by
  obtain ⟨hended, hstop⟩ := h
  have hidle : t = s → t.Stopped ∧ t.session.rank ≤ s.session.rank := by
    rintro rfl
    exact ⟨⟨hended, hstop⟩, le_rfl⟩
  have hobject : ∀ i f, s.onObject i f = .ok t → t = s := by
    intro i f hf
    rw [onObject, if_pos hended] at hf
    exact (Except.ok.inj hf).symm
  cases o with
  | main i o => exact hidle (hobject i _ hst)
  | spawned i throws order => exact hidle (hobject i _ hst)
  | timeout i => exact hidle (hobject i _ hst)
  | poolLoop order =>
    simp only [Client.step, cleanupAndOpenConnections, hended] at hst
    exact hidle (Except.ok.inj hst).symm
  | returned =>
    simp only [Client.step, hended, if_true] at hst
    cases hst
    exact ⟨⟨hended, rfl⟩, le_rfl⟩
  | writer =>
    obtain ⟨session, hsession, hst⟩ := bind_eq_ok.1 hst
    cases hst
    obtain ⟨hstop', hrank⟩ := Session.step_rank hstop (access_ok.1 hsession)
    exact ⟨⟨hended, hstop'⟩, hrank⟩

theorem Stopped.run_keeps (h : s.Stopped) {ops : List Op} (hrun : runM (step sha1) s ops = .ok t) :
    t.Stopped ∧ t.session.rank ≤ s.session.rank - ops.count .writer := by
  induction ops generalizing s with
  | nil =>
    cases hrun
    exact ⟨h, le_rfl⟩
  | cons o ops ih =>
    obtain ⟨u, hu, hrest⟩ := bind_eq_ok.1 hrun
    obtain ⟨hstopped, hrank⟩ := h.keeps hu
    obtain ⟨hlast, hrank'⟩ := ih hstopped hrest
    have hcount : ([o] ++ ops).count .writer = [o].count .writer + ops.count .writer := List.count_append
    rw [List.singleton_append] at hcount
    exact ⟨hlast, by omega⟩

theorem exited_of_rank {s : Session} (h : s.rank = 0) : s.fileManager.writer = .exited := by
  cases hw : s.fileManager.writer with
  | exited => rfl
  | _ => simp [Session.rank, hw] at h

theorem rank_le (s : Session) : s.rank ≤ 3 := by
  cases hw : s.fileManager.writer <;> simp [Session.rank, hw]

section Run

variable (hc : c.data.Consistent) (hsmall : min c.bufferSize.toNat c.numPieces < 2 ^ 31) (hn : peerIps.length ≤ 2 ^ 32)
include hc hsmall hn

/-- steps without a reason to go on -/
theorem Ready.idle (h : s.Ready fs c peerIps sha1 hello) (hno : s.continueDownload = false) (ops : List Op) :
    ∃ t, runM (step sha1) s ops = .ok t ∧ t.Ready fs c peerIps sha1 hello ∧ t.continueDownload = false :=
  resume_rule hc hsmall hn h hno (fun _ _ hu hi he => he.continueDownload hu hi) ops

/-- steps behind the end of the pool -/
theorem Ready.behind (h : s.Ready fs c peerIps sha1 hello) (hended : s.poolLoop = .ended) (ops : List Op) :
    ∃ t, runM (step sha1) s ops = .ok t ∧ t.Ready fs c peerIps sha1 hello ∧ t.poolLoop = .ended :=
  resume_rule hc hsmall hn h hended (fun _ _ _ hi he => he.ended hi) ops

/-- **The end** of a state that is ready, with anything in between -/
theorem Ready.comes_to_end (h : s.Ready fs c peerIps sha1 hello) (hno : s.continueDownload = false)
    (pre mid post : List Op) (order : List ℕ) (hpost : 3 ≤ post.count .writer) :
    ∃ t, runM (step sha1) s (pre ++ .poolLoop order :: (mid ++ .returned :: post)) = .ok t ∧ t.Stopped ∧
      t.session.fileManager.writer = .exited := by
  obtain ⟨u, hu, hready, hno⟩ := h.idle hc hsmall hn hno pre
  obtain ⟨v, hv, hparts, heffect⟩ := step_effect hready hc hsmall hn (.poolLoop order)
  obtain rfl : _ = v := Except.ok.inj ((cleanupAndOpenConnections_ends hno order).symm.trans hv)
  obtain ⟨w, hw, hready', hended'⟩ := (hready.effect hparts heffect).behind hc hsmall hn rfl mid
  have hreturned : step sha1 w .returned = .ok w.setStopDownload := by simp only [step, hended', if_true]
  have hstopped : w.setStopDownload.Stopped := ⟨hended', rfl⟩
  have hparts' := hready'.parts.setStopDownload
  obtain ⟨t, ht, -, -⟩ := (hready'.effect hparts' (.returned hended')).behind hc hsmall hn hended' post
  obtain ⟨hlast, hrank⟩ := hstopped.run_keeps ht
  have hle := rank_le w.setStopDownload.session
  refine ⟨t, ?_, hlast, exited_of_rank (by omega)⟩
  rw [runM_append, hu, ok_bind, runM_cons, hv, ok_bind, runM_append, hw, ok_bind, runM_cons, hreturned, ok_bind, ht]

end Run

/-- **The client ends.** Once the download is complete, or the flag is set, one step of the pool, the return of `start`
and three steps of the writer end both threads, whatever happens before, between and after. -/
theorem ends (sha1 : Bytes → Bytes) (fs : FileSystem) (data : TorrentMetadata) (hd : data.Startable)
    (peerIps : List PeerConnInfo) (hn : peerIps.length ≤ 2 ^ 32) (ourId : Bytes) (ops : List Op) (s : Client)
    (hs : run sha1 fs data peerIps ourId ops = .ok s)
    (hend : s.pieceManager.isDownloadComplete = true ∨ s.session.stopDownload = true) (pre mid post : List Op)
    (order : List ℕ) (hpost : 3 ≤ post.count .writer) :
    ∃ t, run sha1 fs data peerIps ourId (ops ++ (pre ++ .poolLoop order :: (mid ++ .returned :: post))) = .ok t ∧
      t.poolLoop = .ended ∧ t.session.fileManager.writer = .exited := by
  obtain ⟨digest, -, hhello⟩ := hd.hello ourId
  obtain ⟨u, hu, hready⟩ := run_ready hd (opens_of_run hs) hn hhello sha1 ops
  obtain rfl : u = s := Except.ok.inj (hu.symm.trans hs)
  have hno := continueDownload_eq_false.2 hend.symm
  obtain ⟨t, ht, hstopped, hexited⟩ :=
    hready.comes_to_end hd.consistent hd.consistent.small hn hno pre mid post order hpost
  refine ⟨t, ?_, hstopped.ended, hexited⟩
  obtain ⟨s₀, hs₀, hrun⟩ := bind_eq_ok.1 hs
  rw [run, hs₀, ok_bind, runM_append, hrun, ok_bind, ht]

theorem ends_tiny : ∃ t, run zeros .plain tiny onePeer [] (fetch ++ ([reads []] ++ .poolLoop [] :: ([.timeout 0] ++
    .returned :: [.writer, .writer, .writer]))) = .ok t ∧ t.poolLoop = .ended ∧
      t.session.fileManager.writer = .exited := by
  obtain ⟨s, hs, -, hcomplete⟩ := run_fetch
  exact ends zeros .plain tiny startable_tiny onePeer (by decide) [] fetch s hs (Or.inl hcomplete) [reads []]
    [.timeout 0] [.writer, .writer, .writer] [] (by decide)

end Client

end SimpleTorrent
