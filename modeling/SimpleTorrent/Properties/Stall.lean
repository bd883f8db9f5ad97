/-
Choking and the in-flight counter, against a remote peer that keeps to the protocol.

`num_in_flight_` comes down only when a block arrives, so a request that the remote discards stays counted for as long as
the connection lasts.

- `Synced`: as long as no read has failed, the receive loop is in the first of the messages on their way.
- `Balanced`: and the counter, the request being written included, is the number of requests and answers on their way,
  held by the remote, or dropped. It can be off by 256 while an answer overtakes the end of a write.
- `enabled_iff`: once everything has arrived and been answered, and no read has failed, the send loop is enabled exactly
  if fewer than `MAX_IN_FLIGHT` requests were dropped on this connection.
- `stalled_forever`: after that many, the remote never gets another request.
- `choked_for_good`: five requests and one Choke. `stale_answer`: a remote that answers everything and closes.
-/
import SimpleTorrent.Core.Runs
import SimpleTorrent.Model.Connection
import SimpleTorrent.Properties.Delivery
import SimpleTorrent.Properties.InFlight

namespace SimpleTorrent

open MessageUtil Runs

namespace Peer

variable {sha1 : Bytes → Bytes} {s : Peer}

/-! ## The counter of the peer -/

/-- from the head of the send loop: the counter stays, and a request is started below the limit only -/
theorem sendBlockRequests_counter (s : Peer) (order : List ℕ) :
    (s.sendBlockRequests order).numInFlight = s.numInFlight ∧
      ((s.sendBlockRequests order).pending = 0 ∨
        (s.sendBlockRequests order).pending = 1 ∧ s.numInFlight.toNat < maxInFlight) := by
  unfold sendBlockRequests
  simp only
  split_ifs with hlt
  · split
    · exact ⟨rfl, Or.inl rfl⟩
    · exact ⟨rfl, Or.inl rfl⟩
    · exact ⟨rfl, Or.inr ⟨rfl, hlt⟩⟩
  · exact ⟨rfl, Or.inl rfl⟩

theorem pending_congr {t : Peer} (h : t.send = s.send) : t.pending = s.pending := by simp only [pending, h]

theorem pending_eq_one : s.pending = 1 ↔ s.IsWriting := by
  refine ⟨fun h => ?_, pending_writing⟩
  by_contra hw
  rw [pending_idle hw] at h
  exact absurd h Nat.zero_ne_one

theorem handleMessage_counter {type : UInt8} (payload : Bytes) (ht : messageType type ≠ .piece) :
    (s.handleMessage sha1 type payload).numInFlight = s.numInFlight := by
  unfold handleMessage
  split <;> try rfl
  · simp only [handleBitfieldMessage, finish]
    split_ifs <;> rfl
  · contradiction

/-- a block is counted, unless `add_block` throws -/
theorem handleMessage_piece (sha1 : Bytes → Bytes) {type : UInt8} {payload : Bytes}
    (ht : messageType type = .piece) (hlen : 9 ≤ payload.length) (hrun : s.mainRoutineHasExited = false) :
    (s.handleMessage sha1 type payload).numInFlight =
      if (s.handleMessage sha1 type payload).mainRoutineHasExited then s.numInFlight else s.numInFlight - 1 := by
  have hblock : ∃ block, pieceBlock payload = some block := by
    simp only [pieceBlock, Nat.not_lt.2 hlen, if_false]
    exact ⟨_, rfl⟩
  obtain ⟨block, hblock⟩ := hblock
  simp only [handleMessage, ht, handlePieceMessage, hblock]
  split
  · rfl
  · simp [hrun]

/-- only the receive loop ends `start` -/
theorem resume_mainRoutineHasExited (s : Peer) (writeOk : Bool) (order : List ℕ) :
    (s.resume writeOk order).mainRoutineHasExited = s.mainRoutineHasExited := by
  have hhead : ∀ peer : Peer, (peer.sendBlockRequests order).mainRoutineHasExited = peer.mainRoutineHasExited := by
    intro peer
    unfold sendBlockRequests
    simp only
    split_ifs
    · split <;> rfl
    · rfl
  unfold resume
  split
  · split_ifs
    · rfl
    · rfl
    · exact hhead s
  · exact hhead _
  · rfl

theorem other_mainRoutineHasExited (s : Peer) (o : PieceManager.Op) :
    (s.step sha1 (.other o)).mainRoutineHasExited = s.mainRoutineHasExited := by
  simp only [step]
  split <;> rfl

end Peer

namespace Connection

variable {sha1 : Bytes → Bytes} {s t : Connection}

/-! ## The receive loop -/

/-- the pending read is one for the first of these messages -/
def Reads : ReceiveState → List (Option (UInt8 × Bytes)) → Prop
  | .type messageLength, some (_, payload) :: _ => messageLength = payload.length + 1
  | .payload messageLength messageType, some (type, payload) :: _ =>
    messageType = type ∧ messageLength = payload.length + 1
  | .header, _ | .exited, _ => True
  | _, _ => False

/-- in the middle of a message -/
theorem Reads.of_type {n : ℕ} {toPeer : List (Option (UInt8 × Bytes))} (h : Reads (.type n) toPeer) :
    ∃ type payload rest, toPeer = some (type, payload) :: rest ∧ n = payload.length + 1 := by
  match toPeer, h with
  | some (type, payload) :: rest, h => exact ⟨type, payload, rest, rfl, h⟩

theorem Reads.of_payload {n : ℕ} {type : UInt8} {toPeer : List (Option (UInt8 × Bytes))}
    (h : Reads (.payload n type) toPeer) :
    ∃ payload rest, toPeer = some (type, payload) :: rest ∧ n = payload.length + 1 := by
  match toPeer, h with
  | some (_, payload) :: rest, ⟨rfl, h⟩ => exact ⟨payload, rest, rfl, h⟩

theorem Reads.append {state : ReceiveState} {toPeer : List (Option (UInt8 × Bytes))} (h : Reads state toPeer)
    (more : List (Option (UInt8 × Bytes))) : Reads state (toPeer ++ more) := by
  cases state with
  | header | exited => trivial
  | type n =>
    obtain ⟨type, payload, rest, rfl, hn⟩ := h.of_type
    exact hn
  | payload n type =>
    obtain ⟨payload, rest, rfl, hn⟩ := h.of_payload
    exact ⟨rfl, hn⟩

/-- a message with a length that fits in front of it -/
def Short (message : Option (UInt8 × Bytes)) : Prop := ∀ m ∈ message, m.2.length + 1 < 2 ^ 32

/-- no read has failed, and the receive loop is in the first of the messages on their way -/
structure Synced (s : Connection) : Prop where
  onTrack : s.receiver.OnTrack
  reads : Reads s.receiver.state s.toPeer
  running : s.receiver.state ≠ .exited → s.peer.mainRoutineHasExited = false
  short : ∀ message ∈ s.toPeer, Short message

theorem init_synced (m : PieceManager) (id n : ℕ) : (init m id n).Synced :=
  ⟨Receiver.init_onTrack true, trivial, fun _ => rfl, by simp [init]⟩

/-- other steps do not touch the receive loop, and messages arrive behind those that are on their way -/
structure Frame (s t : Connection) : Prop where
  receiver : t.receiver = s.receiver
  running : t.peer.mainRoutineHasExited = s.peer.mainRoutineHasExited
  toPeer : ∃ more, t.toPeer = s.toPeer ++ more ∧ ∀ message ∈ more, Short message

theorem Synced.frame (h : s.Synced) (hf : Frame s t) : t.Synced := by
  obtain ⟨hreceiver, hrunning, more, hto, hmore⟩ := hf
  refine ⟨hreceiver ▸ h.onTrack, ?_, ?_, ?_⟩
  · rw [hreceiver, hto]
    exact h.reads.append more
  · rw [hreceiver, hrunning]
    exact h.running
  · rw [hto]
    intro message hmem
    exact (List.mem_append.1 hmem).elim (h.short message) (hmore message)

/-- what becomes of the peer with a message -/
def handle (sha1 : Bytes → Bytes) (s : Connection) : Option (UInt8 × Bytes) → Peer
  | none => s.peer
  | some (type, payload) => s.peer.handleMessage sha1 type payload

def isAnswer : Option (UInt8 × Bytes) → Bool
  | none => false
  | some (type, _) => decide (messageType type = .piece)

/-- the first message has been read to its end -/
def taken (sha1 : Bytes → Bytes) (s : Connection) (message : Option (UInt8 × Bytes))
    (rest : List (Option (UInt8 × Bytes))) (receiver : Receiver) : Connection :=
  { s with
    receiver := receiver
    peer := if receiver.state = .exited then (s.handle sha1 message).finish else s.handle sha1 message
    toPeer := rest
    dropped :=
      if isAnswer message = true ∧ (s.handle sha1 message).mainRoutineHasExited = true then s.dropped + 1
      else s.dropped }

/-- what a read that does not fail does: nothing yet, a part of the first message, or the end of it -/
def Goes (sha1 : Bytes → Bytes) (s t : Connection) : Prop :=
  t = s ∨
  (∃ receiver : Receiver, receiver.OnTrack ∧ Reads receiver.state s.toPeer ∧ s.receiver.state ≠ .exited ∧
    t = { s with receiver := receiver }) ∨
  ∃ message rest receiver, s.toPeer = message :: rest ∧ s.receiver.state ≠ .exited ∧ receiver.OnTrack ∧
    (receiver.state = .header ∧ (s.handle sha1 message).mainRoutineHasExited = false ∨ receiver.state = .exited) ∧
    t = s.taken sha1 message rest receiver

/-- a length is read -/
theorem Synced.reads_header (h : s.Synced) (hs : s.receiver.state = .header) {n : ℕ} (hn : n < 2 ^ 32) (stop : Bool)
    (stale : UInt8) (throws : Bool) : ∃ receiver : Receiver,
      s.receiver.step ⟨writeUint32 n, stop, stale, throws⟩ = receiver ∧ receiver.OnTrack ∧
        (n ≠ 0 → receiver.state = .type n) ∧ (n = 0 → receiver.Settled) := by
  have hlen : s.receiver.header.length = 4 := h.onTrack.header
  have hfails : ¬ s.receiver.Fails ⟨writeUint32 n, stop, stale, throws⟩ := by
    simp [Receiver.Fails, Receiver.wanted, hs]
  have hfill : Receiver.fill s.receiver.header ⟨writeUint32 n, stop, stale, throws⟩ = writeUint32 n := by
    rw [Receiver.fill_of_le (by simp [hlen]), hlen]
    rfl
  have hread : getHeaderLength (writeUint32 n) = n := by
    have := readUint32_writeUint32 hn []
    rwa [List.append_nil] at this
  refine ⟨_, rfl, Receiver.step_onTrack h.onTrack hfails, fun hne => ?_, fun hzero => ?_⟩
  · simp only [Receiver.step, hs, hfill, hread, if_neg hne]
  · simp only [Receiver.step, hs, hfill, hread, if_pos hzero, Receiver.test, Receiver.Settled]
    split <;> simp

theorem Synced.receive_header (h : s.Synced) (hs : s.receiver.state = .header) : Goes sha1 s (s.receive sha1) := by
  have hfailed := h.onTrack.failed
  have hlive : s.receiver.state ≠ .exited := by simp [hs]
  match hto : s.toPeer with
  | [] => exact Or.inl (by simp only [receive, arriving, hs, hto])
  | none :: rest =>
    obtain ⟨receiver, hstep, hon, -, hsettled⟩ :=
      h.reads_header hs (n := 0) (by decide) (!s.peer.continueConnection) 0 s.peer.mainRoutineHasExited
    refine Or.inr (Or.inr ⟨none, rest, receiver, hto, hlive, hon, ?_, ?_⟩)
    · exact (hsettled rfl).imp_left fun hheader => ⟨hheader, h.running hlive⟩
    · simp [receive, arriving, hs, hto, hfailed, read, hstep, taken, handle, isAnswer]
  | some (type, payload) :: rest =>
    have hshort := h.short (some (type, payload)) (by simp [hto]) (type, payload) rfl
    obtain ⟨receiver, hstep, hon, hstate, -⟩ :=
      h.reads_header hs hshort (!s.peer.continueConnection) 0 s.peer.mainRoutineHasExited
    have hstate := hstate (Nat.succ_ne_zero _)
    refine Or.inr (Or.inl ⟨receiver, hon, ?_, hlive, ?_⟩)
    · rw [hstate, hto]
      rfl
    · simp [receive, arriving, hs, hto, hfailed, read, hstep, hstate]

theorem Synced.receive_type (h : s.Synced) {n : ℕ} (hs : s.receiver.state = .type n) :
    Goes sha1 s (s.receive sha1) := by
  obtain ⟨type, payload, rest, hto, rfl⟩ := Reads.of_type (hs ▸ h.reads)
  have hfails : ¬ s.receiver.Fails ⟨[type], !s.peer.continueConnection, 0, s.peer.mainRoutineHasExited⟩ := by
    simp [Receiver.Fails, Receiver.wanted, hs]
  have hstate : (s.receiver.step ⟨[type], !s.peer.continueConnection, 0, s.peer.mainRoutineHasExited⟩).state =
      .payload (payload.length + 1) type := by
    simp only [Receiver.step, hs]
    rfl
  refine Or.inr (Or.inl ⟨_, Receiver.step_onTrack h.onTrack hfails, ?_, by simp [hs], ?_⟩)
  · rw [hstate, hto]
    exact ⟨rfl, rfl⟩
  · simp [receive, arriving, hs, hto, h.onTrack.failed, read, hstate]

/-- the message is handled -/
theorem Synced.receive_payload (h : s.Synced) {n : ℕ} {type : UInt8} (hs : s.receiver.state = .payload n type) :
    Goes sha1 s (s.receive sha1) := by
  obtain ⟨payload, rest, hto, rfl⟩ := Reads.of_payload (hs ▸ h.reads)
  have hfails : ∀ throws, ¬ s.receiver.Fails ⟨payload, !s.peer.continueConnection, 0, throws⟩ := by
    intro throws
    simp [Receiver.Fails, Receiver.wanted, hs]
  have hfill : ∀ throws, Receiver.fill (List.replicate (payload.length + 1 - 1) 0)
      ⟨payload, !s.peer.continueConnection, 0, throws⟩ = payload := by
    intro throws
    rw [Receiver.fill_of_le (by simp)]
    simp
  refine Or.inr (Or.inr ⟨some (type, payload), rest, _, hto, by simp [hs],
    Receiver.step_onTrack h.onTrack (hfails (s.peer.handleMessage sha1 type payload).mainRoutineHasExited), ?_, ?_⟩)
  · simp only [Receiver.step, hs, handle]
    cases (s.peer.handleMessage sha1 type payload).mainRoutineHasExited with
    | true => exact Or.inr rfl
    | false =>
      simp only [Bool.false_eq_true, if_false, Receiver.test]
      split <;> simp
  · simp only [receive, arriving, hs, hto, h.onTrack.failed, read, hfill, taken, handle, isAnswer, decide_eq_true_eq,
      Bool.false_eq_true, if_false]
    split <;> rfl

/-- **A read that does not fail** -/
theorem Synced.receive (h : s.Synced) : Goes sha1 s (s.receive sha1) := by
  cases hs : s.receiver.state with
  | header => exact h.receive_header hs
  | type n => exact h.receive_type hs
  | payload n type => exact h.receive_payload hs
  | exited => exact Or.inl (by simp only [Connection.receive, arriving, hs])

theorem Synced.goes (h : s.Synced) (hg : Goes sha1 s t) : t.Synced := by
  rcases hg with rfl | ⟨receiver, hon, hreads, hlive, rfl⟩ | ⟨message, rest, receiver, hto, hlive, hon, hend, rfl⟩
  · exact h
  · exact ⟨hon, hreads, fun _ => h.running hlive, h.short⟩
  · refine ⟨hon, ?_, fun hne => ?_, fun m hm => h.short m (hto ▸ List.mem_cons_of_mem _ hm)⟩
    · rcases hend with ⟨hheader, -⟩ | hexited
      · simp only [taken, hheader]
        trivial
      · simp only [taken, hexited]
        trivial
    · obtain ⟨-, hrun⟩ := hend.resolve_right hne
      simp only [taken, if_neg (show ¬ receiver.state = .exited from hne), hrun]

/-! ## The balance -/

/-- the answers on their way -/
def answersOnWay (s : Connection) : ℕ := s.toPeer.countP isAnswer

/-- requests that were started and whose answer has not been handled -/
def inFlight (s : Connection) : ℕ :=
  (if s.transmitted then 0 else s.peer.pending) + s.toRemote.length + s.held.length + s.answersOnWay + s.dropped

/-- an answer with something in it -/
def Whole (message : Option (UInt8 × Bytes)) : Prop := ∀ m ∈ message, messageType m.1 = .piece → 9 ≤ m.2.length

structure Balanced (s : Connection) : Prop where
  balance : (s.peer.numInFlight.toNat + s.peer.pending) % 256 = s.inFlight
  bound : s.inFlight ≤ Peer.maxInFlight
  /-- only a request that is being written can be on its way before the end of its write -/
  writing : s.transmitted = true → s.peer.IsWriting
  /-- the answers are long enough to be handled -/
  answers : ∀ message ∈ s.toPeer, Whole message

theorem init_balanced (m : PieceManager) (id n : ℕ) : (init m id n).Balanced := by
  refine ⟨rfl, Nat.zero_le _, ?_, ?_⟩
  · intro h
    cases h
  · intro message h
    cases h

/-- requests that move from one place to another -/
theorem Balanced.move {t : Connection} (h : s.Balanced) (hpeer : t.peer = s.peer) (hin : t.inFlight = s.inFlight)
    (hwriting : t.transmitted = true → t.peer.IsWriting)
    (hanswers : ∀ message ∈ t.toPeer, Whole message) : t.Balanced :=
  ⟨by rw [hpeer, hin]; exact h.balance, by rw [hin]; exact h.bound, hwriting, hanswers⟩

/-- a step of the peer that neither counts nor starts or ends a write -/
theorem Balanced.setPeer {peer : Peer} (h : s.Balanced) (hcount : peer.numInFlight = s.peer.numInFlight)
    (hpending : peer.pending = s.peer.pending) : Balanced { s with peer := peer } := by
  have hin : inFlight { s with peer := peer } = s.inFlight := by simp only [inFlight, answersOnWay, hpending]
  refine ⟨by rw [hin, hcount, hpending]; exact h.balance, by rw [hin]; exact h.bound, ?_, h.answers⟩
  intro ht
  rw [← Peer.pending_eq_one, hpending, Peer.pending_eq_one]
  exact h.writing ht

/-! ## The send coroutine -/

/-- from the head of the send loop, with nothing being written -/
theorem Balanced.sendBlockRequests (peer : Peer) (order : List ℕ) {k : ℕ} (hk : k ≤ Peer.maxInFlight)
    (hcount : peer.numInFlight.toNat = k) (hs : s.peer = peer.sendBlockRequests order) (ht : s.transmitted = false)
    (hrest : s.toRemote.length + s.held.length + s.answersOnWay + s.dropped = k)
    (hanswers : ∀ message ∈ s.toPeer, Whole message) : s.Balanced := by
  obtain ⟨hsame, hstart⟩ := Peer.sendBlockRequests_counter peer order
  have hmax : Peer.maxInFlight = 5 := rfl
  have hin : s.inFlight = s.peer.pending + k := by
    simp only [inFlight, ht, Bool.false_eq_true, if_false, ← hrest, Nat.add_assoc]
  rw [← hs] at hsame hstart
  refine ⟨?_, ?_, ?_, hanswers⟩
  · rw [hin, hsame, hcount]
    omega
  · rw [hin]
    omega
  · rw [ht]
    intro h
    cases h

theorem resume_balanced (h : s.Balanced) (order : List ℕ) : (s.resume order).Balanced := by
  have hbalance := h.balance
  have hbound := h.bound
  have hmax : Peer.maxInFlight = 5 := rfl
  have hlt := s.peer.numInFlight.toNat_lt
  unfold resume
  cases hs : s.peer.send with
  | writing request =>
    have hpending : s.peer.pending = 1 := Peer.pending_writing ⟨request, hs⟩
    have hone : (s.peer.numInFlight + 1).toNat = s.inFlight := by
      rw [UInt8.toNat_add, ← hbalance, hpending]
      rfl
    refine Balanced.sendBlockRequests { s.peer with
        numInFlight := s.peer.numInFlight + 1
        written := if s.transmitted then s.peer.written + 1 else s.peer.written } order hbound hone ?_ rfl ?_ h.answers
    · simp only [Peer.resume, hs]
    · -- a request that was not on its way is lost
      simp only [inFlight, hpending, answersOnWay]
      split_ifs <;> omega
  | exited => exact h.setPeer (by simp only [Peer.resume, hs]) (by simp only [Peer.resume, hs])
  | waiting =>
    have hidle : s.peer.pending = 0 := by simp only [Peer.pending, hs]
    have hnot : s.transmitted = false := by
      rw [← Bool.not_eq_true]
      intro ht
      rw [Peer.pending_writing (h.writing ht)] at hidle
      exact absurd hidle Nat.one_ne_zero
    have hsum : s.toRemote.length + s.held.length + s.answersOnWay + s.dropped = s.inFlight := by
      simp only [inFlight, hnot, hidle, Bool.false_eq_true, if_false, Nat.zero_add]
    simp only [Peer.resume, hs]
    split_ifs with hcont hchoked
    · exact h.setPeer rfl hidle.symm
    · exact h
    · refine Balanced.sendBlockRequests s.peer order hbound ?_ rfl hnot hsum h.answers
      omega

/-! ## The other steps -/

theorem transmit_balanced (h : s.Balanced) : s.transmit.Balanced := by
  unfold transmit
  split
  · split_ifs with ht
    · exact h
    · have hw : s.peer.IsWriting := ⟨_, by assumption⟩
      refine h.move rfl ?_ (fun _ => hw) h.answers
      simp only [inFlight, Peer.pending_writing hw, answersOnWay, List.length_append, List.length_singleton, ht,
        Bool.false_eq_true, if_true, if_false]
      omega
  · exact h

theorem arrive_balanced (h : s.Balanced) (keep : Bool) : (s.arrive keep).Balanced := by
  unfold arrive
  split
  · exact h
  · rename_i request rest hs
    split_ifs with hdrop
    · refine h.move rfl ?_ h.writing h.answers
      simp only [inFlight, answersOnWay, hs, List.length_cons]
      omega
    · refine h.move rfl ?_ h.writing h.answers
      simp only [inFlight, answersOnWay, hs, List.length_cons, List.length_append, List.length_nil]
      omega

/-- a message that is no answer -/
theorem Balanced.send (h : s.Balanced) (message : Option (UInt8 × Bytes)) (hno : isAnswer message = false)
    (hpeer : t.peer = s.peer) (htransmitted : t.transmitted = s.transmitted)
    (hto : t.toPeer = s.toPeer ++ [message])
    (hrest : t.toRemote.length + t.held.length + t.dropped = s.toRemote.length + s.held.length + s.dropped) :
    t.Balanced := by
  have hway : t.answersOnWay = s.answersOnWay := by simp [answersOnWay, hto, hno]
  refine h.move hpeer ?_ ?_ ?_
  · simp only [inFlight, hway, hpeer, htransmitted]
    omega
  · rw [hpeer, htransmitted]
    exact h.writing
  · rw [hto]
    intro m hm
    rcases List.mem_append.1 hm with hm | hm
    · exact h.answers m hm
    · rw [List.mem_singleton.1 hm]
      intro m' hm' hpiece
      obtain rfl := Option.mem_def.1 hm'
      simp [isAnswer, hpiece] at hno

theorem answer_balanced (h : s.Balanced) (i : ℕ) (data : Bytes) : (s.answer i data).Balanced := by
  unfold answer
  split
  · exact h
  · rename_i request hi
    split_ifs with hvalid
    · refine h.move rfl ?_ h.writing ?_
      · obtain ⟨hlt, -⟩ := List.getElem?_eq_some_iff.1 hi
        have hpiece : isAnswer (some (pieceMessage request data)) = true := rfl
        simp only [inFlight, answersOnWay, List.countP_append, List.countP_singleton, hpiece, if_true,
          List.length_eraseIdx_of_lt hlt]
        omega
      · intro message hmem
        rcases List.mem_append.1 hmem with hmem | hmem
        · exact h.answers message hmem
        · rw [List.mem_singleton.1 hmem]
          rintro m ⟨⟩ -
          have hpos := List.length_pos_of_ne_nil hvalid.1
          simp only [pieceMessage, writeUint32, List.length_append, List.length_cons, List.length_nil]
          omega
    · exact h

theorem choke_balanced (h : s.Balanced) : s.choke.Balanced := by
  refine h.send (some (0, [])) rfl rfl rfl rfl ?_
  simp only [choke, List.length_nil]
  omega

theorem message_balanced (h : s.Balanced) (type : UInt8) (payload : Bytes) : (s.message type payload).Balanced := by
  unfold message
  split
  · exact h
  · exact h
  · exact h
  · rename_i hpiece
    split_ifs
    · exact h.send (some (type, payload)) (by simpa [isAnswer] using hpiece) rfl rfl rfl rfl
    · exact h

/-- a message is handled that is no answer -/
theorem handle_counter {message : Option (UInt8 × Bytes)} (hno : isAnswer message = false) :
    (s.handle sha1 message).numInFlight = s.peer.numInFlight := by
  match message, hno with
  | none, _ => rfl
  | some (type, payload), hno => exact Peer.handleMessage_counter payload (by simpa [isAnswer] using hno)

theorem handle_pending (sha1 : Bytes → Bytes) (s : Connection) (message : Option (UInt8 × Bytes)) :
    (s.handle sha1 message).pending = s.peer.pending := by
  match message with
  | none => rfl
  | some (type, payload) => exact Peer.pending_congr (Peer.handleMessage_frame sha1 s.peer type payload).send

/-- an answer is handled -/
theorem handle_answer (sha1 : Bytes → Bytes) {message : Option (UInt8 × Bytes)} (hanswer : isAnswer message = true) (hwhole : Whole message)
    (hrun : s.peer.mainRoutineHasExited = false) : (s.handle sha1 message).numInFlight =
      if (s.handle sha1 message).mainRoutineHasExited then s.peer.numInFlight else s.peer.numInFlight - 1 := by
  match message, hanswer with
  | some (type, payload), hanswer =>
    have hpiece : messageType type = .piece := of_decide_eq_true hanswer
    exact Peer.handleMessage_piece sha1 hpiece (hwhole (type, payload) rfl hpiece) hrun

/-- the counter does not depend on whether the receive loop has ended -/
theorem Balanced.ended {peer : Peer} {receiver : Receiver} {toPeer : List (Option (UInt8 × Bytes))} {dropped : ℕ}
    (h : Balanced { s with peer := peer, toPeer := toPeer, dropped := dropped }) : Balanced { s with
      receiver := receiver
      peer := if receiver.state = .exited then peer.finish else peer
      toPeer := toPeer
      dropped := dropped } := by
  have h' : Balanced { s with receiver := receiver, peer := peer, toPeer := toPeer, dropped := dropped } :=
    ⟨h.balance, h.bound, h.writing, h.answers⟩
  refine h'.setPeer ?_ ?_
  · split_ifs <;> rfl
  · split_ifs <;> rfl

/-- **A message is handled**: an answer makes room for a request, or its request is dropped. -/
theorem taken_balanced (h : s.Balanced) (hrun : s.peer.mainRoutineHasExited = false)
    {message : Option (UInt8 × Bytes)} {rest : List (Option (UInt8 × Bytes))} (hto : s.toPeer = message :: rest)
    (receiver : Receiver) : (s.taken sha1 message rest receiver).Balanced := by
  have hanswers : ∀ m ∈ rest, Whole m := fun m hm => h.answers m (hto ▸ List.mem_cons_of_mem _ hm)
  have hpending := handle_pending sha1 s message
  refine Balanced.ended ?_
  cases hanswer : isAnswer message with
  | false =>
    have hway : s.answersOnWay = rest.countP isAnswer := by simp [answersOnWay, hto, hanswer]
    rw [if_neg fun hboth => Bool.false_ne_true hboth.1]
    refine Balanced.setPeer (s := { s with toPeer := rest }) ?_ (handle_counter hanswer) hpending
    refine h.move rfl ?_ h.writing hanswers
    simp only [inFlight, hway]
    rfl
  | true =>
    have hbalance := h.balance
    have hbound := h.bound
    have hcount := handle_answer sha1 hanswer (h.answers message (hto ▸ List.mem_cons_self)) hrun
    -- the answer is no longer on its way
    have hway : s.toPeer.countP isAnswer = rest.countP isAnswer + 1 := by simp [hto, hanswer]
    by_cases hthrow : (s.handle sha1 message).mainRoutineHasExited = true
    · -- the request stays counted for good
      rw [if_pos hthrow] at hcount
      rw [if_pos ⟨rfl, hthrow⟩]
      refine Balanced.setPeer (s := { s with toPeer := rest, dropped := s.dropped + 1 }) ?_ hcount hpending
      refine h.move rfl ?_ h.writing hanswers
      simp only [inFlight, answersOnWay, hway]
      omega
    · rw [if_neg hthrow] at hcount
      rw [if_neg fun hboth => hthrow hboth.2]
      have hone : (1 : UInt8).toNat = 1 := rfl
      have hin : s.inFlight = inFlight { s with peer := s.handle sha1 message, toPeer := rest } + 1 := by
        simp only [inFlight, hpending, answersOnWay, hway]
        omega
      refine ⟨?_, ?_, ?_, hanswers⟩
      · rw [hcount, hpending, UInt8.toNat_sub, hone]
        omega
      · omega
      · intro ht
        rw [← Peer.pending_eq_one, hpending, Peer.pending_eq_one]
        exact h.writing ht

theorem Balanced.goes (h : s.Balanced) (hsynced : s.Synced) (hg : Goes sha1 s t) : t.Balanced := by
  rcases hg with rfl | ⟨receiver, -, -, -, rfl⟩ | ⟨message, rest, receiver, hto, hlive, -, -, rfl⟩
  · exact h
  · exact ⟨h.balance, h.bound, h.writing, h.answers⟩
  · exact taken_balanced h (hsynced.running hlive) hto receiver

/-! ## Runs -/

/-- what holds as long as no read has failed -/
def Tracked (s : Connection) : Prop := s.receiver.failed = false → s.Synced ∧ s.Balanced

theorem init_tracked (m : PieceManager) (id n : ℕ) : (init m id n).Tracked :=
  fun _ => ⟨init_synced m id n, init_balanced m id n⟩

/-- a read that fails is remembered -/
theorem fail_failed (s : Connection) (data : Bytes) (stale : UInt8) :
    s.fail sha1 data stale = s ∨ (s.fail sha1 data stale).receiver.failed = true := by
  unfold fail
  split_ifs with hfails
  · right
    simp only [read, (Receiver.step_read s.receiver _).2, Receiver.read, Bool.or_eq_true, decide_eq_true_eq]
    exact hfails.2
  · exact Or.inl rfl

/-- the end of a read -/
def Op.isRead : Op → Bool
  | .receive | .fail _ _ => true
  | _ => false

theorem Frame.same (hreceiver : t.receiver = s.receiver)
    (hrunning : t.peer.mainRoutineHasExited = s.peer.mainRoutineHasExited) (hto : t.toPeer = s.toPeer) : Frame s t :=
  ⟨hreceiver, hrunning, [], by rw [hto, List.append_nil], by simp⟩

theorem Frame.send {message : Option (UInt8 × Bytes)} (hreceiver : t.receiver = s.receiver) (hpeer : t.peer = s.peer)
    (hto : t.toPeer = s.toPeer ++ [message]) (hshort : Short message) : Frame s t :=
  ⟨hreceiver, by rw [hpeer], [message], hto, by simpa using hshort⟩

theorem step_frame (s : Connection) {o : Op} (ho : o.isRead = false) : Frame s (s.step sha1 o) := by
  cases o with
  | receive => cases ho
  | fail data stale => cases ho
  | resume order =>
    simp only [step, resume]
    split <;> exact .same rfl (Peer.resume_mainRoutineHasExited _ _ _) rfl
  | transmit =>
    simp only [step, transmit]
    split
    · split_ifs <;> exact .same rfl rfl rfl
    · exact .same rfl rfl rfl
  | arrive keep =>
    simp only [step, arrive]
    split
    · exact .same rfl rfl rfl
    · split_ifs <;> exact .same rfl rfl rfl
  | answer i data =>
    simp only [step, answer]
    split
    · exact .same rfl rfl rfl
    · split_ifs with hvalid
      · refine .send rfl rfl rfl ?_
        rintro m ⟨⟩
        simp only [pieceMessage, List.length_append, length_writeUint32]
        omega
      · exact .same rfl rfl rfl
  | choke => exact .send rfl rfl rfl (by rintro m ⟨⟩; decide)
  | unchoke => exact .send rfl rfl rfl (by rintro m ⟨⟩; decide)
  | message type payload =>
    simp only [step, message]
    split
    · exact .same rfl rfl rfl
    · exact .same rfl rfl rfl
    · exact .same rfl rfl rfl
    · split_ifs with hshort
      · exact .send rfl rfl rfl (by rintro m ⟨⟩; exact hshort)
      · exact .same rfl rfl rfl
  | keepAlive => exact .send rfl rfl rfl (by rintro m ⟨⟩)
  | other o => exact .same rfl (Peer.other_mainRoutineHasExited _ o) rfl
  | timeout => exact .same rfl rfl rfl

theorem step_balanced (h : s.Balanced) {o : Op} (ho : o.isRead = false) : (s.step sha1 o).Balanced := by
  cases o with
  | receive => cases ho
  | fail data stale => cases ho
  | resume order => exact resume_balanced h order
  | transmit => exact transmit_balanced h
  | arrive keep => exact arrive_balanced h keep
  | answer i data => exact answer_balanced h i data
  | choke => exact choke_balanced h
  | unchoke => exact h.send (some (1, [])) rfl rfl rfl rfl rfl
  | message type payload => exact message_balanced h type payload
  | keepAlive => exact h.send none rfl rfl rfl rfl rfl
  | other o =>
    simp only [step, Peer.step]
    split
    · exact h
    · exact h.setPeer rfl rfl
  | timeout => exact h.setPeer rfl rfl

theorem step_failed (h : s.receiver.failed = true) (o : Op) : (s.step sha1 o).receiver.failed = true := by
  cases ho : o.isRead with
  | false => rw [(step_frame s ho).receiver, h]
  | true =>
    cases o with
    | receive =>
      simp only [step, receive, h, if_true]
      split <;> exact h
    | fail data stale =>
      rcases fail_failed s data stale with hsame | hfailed
      · rw [step, hsame, h]
      · exact hfailed
    | _ => cases ho

/-- **Every step keeps track**, unless it is a read that fails. -/
theorem step_tracked (h : s.Tracked) (o : Op) : (s.step sha1 o).Tracked := by
  intro hok
  have hfailed : s.receiver.failed = false := by
    rw [← Bool.not_eq_true]
    intro hfailed
    rw [step_failed hfailed o] at hok
    cases hok
  obtain ⟨hsynced, hbalanced⟩ := h hfailed
  cases ho : o.isRead with
  | false => exact ⟨hsynced.frame (step_frame s ho), step_balanced hbalanced ho⟩
  | true =>
    cases o with
    | receive => exact ⟨hsynced.goes hsynced.receive, hbalanced.goes hsynced hsynced.receive⟩
    | fail data stale =>
      rcases fail_failed s data stale with hsame | hfails
      · rw [step, hsame]
        exact ⟨hsynced, hbalanced⟩
      · rw [step, hfails] at hok
        cases hok
    | _ => cases ho

theorem run_tracked (sha1 : Bytes → Bytes) (h : s.Tracked) (ops : List Op) : (s.run sha1 ops).Tracked :=
  foldl_inv (I := Tracked) (fun _ o h => step_tracked h o) h ops

/-! ## Stalls -/

/-- the send coroutine is between two iterations of `send_messages`, the peer is not choked, no message is on its way,
and the remote has nothing to answer -/
def Quiet (s : Connection) : Prop :=
  s.peer.send = .waiting ∧ s.peer.isChoked = false ∧ s.toRemote = [] ∧ s.toPeer = [] ∧ s.held = []

instance (s : Connection) : Decidable s.Quiet := by unfold Quiet; infer_instance

theorem Balanced.quiet (h : s.Balanced) (hq : s.Quiet) : s.peer.numInFlight.toNat = s.dropped := by
  obtain ⟨hsend, -, hremote, hpeer, hheld⟩ := hq
  have hidle : s.peer.pending = 0 := by simp only [Peer.pending, hsend]
  have hin : s.inFlight = s.dropped := by simp [inFlight, answersOnWay, hidle, hremote, hpeer, hheld]
  have hbalance := h.balance
  have hlt := s.peer.numInFlight.toNat_lt
  omega

/-- **When a connection stalls.** In every state reached in which the peer is waiting unchoked, nothing is on its way or
left to answer, and no read has failed, the send loop is enabled exactly if fewer than `MAX_IN_FLIGHT` requests were
dropped. -/
theorem enabled_iff (sha1 : Bytes → Bytes) (m : PieceManager) (id n : ℕ) (ops : List Op)
    (hok : ((init m id n).run sha1 ops).receiver.failed = false) (hq : ((init m id n).run sha1 ops).Quiet) :
    ((init m id n).run sha1 ops).peer.numInFlight.toNat < Peer.maxInFlight ↔
      ((init m id n).run sha1 ops).dropped < Peer.maxInFlight := by
  rw [(run_tracked sha1 (init_tracked m id n) ops hok).2.quiet hq]

/-- a message is read -/
def readMessage : List Op := [.receive, .receive, .receive]

/-- both blocks of the piece are asked for, and answered before the second write has ended -/
def answeredOps : List Op :=
  .unchoke :: readMessage ++ [.resume [], .transmit, .arrive true, .resume [], .transmit, .arrive true, .answer 1 [2],
    .answer 0 [1]] ++ readMessage ++ readMessage ++ [.resume []]

theorem enabled_iff_onePiece : ∃ m, PieceManager.onePiece.run id [.updatePieceFrequencies [1] 0] = .ok m ∧
    (((init m 0 1).run id answeredOps).peer.numInFlight.toNat < Peer.maxInFlight ↔
      ((init m 0 1).run id answeredOps).dropped < Peer.maxInFlight) :=
  ⟨_, rfl, enabled_iff id _ 0 1 answeredOps (by decide) (by decide)⟩

/-- **Why no read may have failed**: after the run above the remote closes the connection. The loop takes the header that
is in its buffer for another one, finds the type of the last message where the next should be, and handles a Piece of
zeros; the counter falls below zero. -/
theorem stale_answer : ∃ m, PieceManager.onePiece.run id [.updatePieceFrequencies [1] 0] = .ok m ∧
    ((init m 0 1).run id (answeredOps ++ [.fail [] 0, .fail [] 7, .fail [] 0])).Quiet ∧
    ((init m 0 1).run id (answeredOps ++ [.fail [] 0, .fail [] 7, .fail [] 0])).dropped = 0 ∧
    ((init m 0 1).run id (answeredOps ++ [.fail [] 0, .fail [] 7, .fail [] 0])).peer.numInFlight = 255 :=
  ⟨_, rfl, by decide, by decide, by decide⟩

/-! ## Afterwards -/

theorem Goes.dropped (hg : Goes sha1 s t) : s.dropped ≤ t.dropped := by
  rcases hg with rfl | ⟨receiver, -, -, -, rfl⟩ | ⟨message, rest, receiver, -, -, -, -, rfl⟩
  · exact le_rfl
  · exact le_rfl
  · simp only [taken]
    split_ifs
    · exact Nat.le_succ _
    · exact le_rfl

/-- a dropped request stays dropped -/
theorem step_dropped (h : s.Tracked) {o : Op} (hok : (s.step sha1 o).receiver.failed = false) :
    s.dropped ≤ (s.step sha1 o).dropped := by
  cases o with
  | resume order =>
    simp only [step, resume]
    split
    · dsimp only
      split_ifs <;> omega
    · exact le_rfl
  | arrive keep =>
    simp only [step, arrive]
    split
    · exact le_rfl
    · split_ifs
      · exact Nat.le_succ _
      · exact le_rfl
  | choke => exact Nat.le_add_right _ _
  | receive =>
    by_cases hfailed : s.receiver.failed = true
    · rw [step_failed hfailed] at hok
      cases hok
    · exact (h (by simpa using hfailed)).1.receive.dropped
  | fail data stale =>
    rcases fail_failed s data stale with hsame | hfails
    · rw [step, hsame]
    · rw [step, hfails] at hok
      cases hok
  | transmit =>
    simp only [step, transmit]
    split
    · split_ifs <;> exact le_rfl
    · exact le_rfl
  | answer i data =>
    simp only [step, answer]
    split
    · exact le_rfl
    · split_ifs <;> exact le_rfl
  | message type payload =>
    simp only [step, message]
    split
    · exact le_rfl
    · exact le_rfl
    · exact le_rfl
    · split_ifs <;> exact le_rfl
  | unchoke | keepAlive | other _ | timeout => exact le_rfl

theorem run_dropped (sha1 : Bytes → Bytes) (h : s.Tracked) (ops : List Op)
    (hok : (s.run sha1 ops).receiver.failed = false) : s.dropped ≤ (s.run sha1 ops).dropped := by
  have hstep : ∀ (t : Connection) (o : Op), (t.Tracked ∧ (t.receiver.failed = false → s.dropped ≤ t.dropped)) →
      (t.step sha1 o).Tracked ∧ ((t.step sha1 o).receiver.failed = false → s.dropped ≤ (t.step sha1 o).dropped) := by
    intro t o ht
    refine ⟨step_tracked ht.1 o, fun hok => ?_⟩
    have hbefore : t.receiver.failed = false := by
      rw [← Bool.not_eq_true]
      intro hfailed
      rw [step_failed hfailed o] at hok
      cases hok
    exact (ht.2 hbefore).trans (step_dropped ht.1 hok)
  exact (foldl_inv hstep ⟨h, fun _ => le_rfl⟩ ops).2 hok

/-- **A stalled connection stays stalled.** After `MAX_IN_FLIGHT` dropped requests no request is ever on its way again,
and the remote has none to answer, as long as no read fails. -/
theorem stalled_forever (sha1 : Bytes → Bytes) (m : PieceManager) (id n : ℕ) (ops more : List Op)
    (h : ((init m id n).run sha1 ops).dropped = Peer.maxInFlight)
    (hok : (((init m id n).run sha1 ops).run sha1 more).receiver.failed = false) :
    (((init m id n).run sha1 ops).run sha1 more).toRemote = [] ∧
      (((init m id n).run sha1 ops).run sha1 more).held = [] := by
  have htracked := run_tracked sha1 (init_tracked m id n) ops
  have hbound := (run_tracked sha1 htracked more hok).2.bound
  have hdropped := run_dropped sha1 htracked more hok
  rw [h] at hdropped
  rw [inFlight] at hbound
  constructor
  · apply List.eq_nil_of_length_eq_zero
    omega
  · apply List.eq_nil_of_length_eq_zero
    omega

theorem six_lt_two_pow_32 : 6 < 2 ^ 32 := by decide

/-- one piece of six blocks -/
def sixBlocks : Config :=
  ⟨.ofHashes [[1, 2, 3, 4, 5, 6]] 6 6, 1, 1, Nat.succ_pos 5, six_lt_two_pow_32, toNat_one_pos⟩

/-- five requests reach the remote, which then sends Choke and Unchoke -/
def chokedOps : List Op :=
  .unchoke :: readMessage ++ [.resume []] ++ (List.replicate 5 [.transmit, .arrive true, .resume []]).flatten ++
    .choke :: readMessage ++ .unchoke :: readMessage

/-- **Five requests and one Choke**: the peer is unchoked, nothing is on its way or left to answer, and the send loop is
not enabled -/
theorem choked_for_good : ∃ m, sixBlocks.run id [.updatePieceFrequencies [1] 0] = .ok m ∧
    ((init m 0 1).run id chokedOps).receiver.failed = false ∧ ((init m 0 1).run id chokedOps).Quiet ∧
    ¬ ((init m 0 1).run id chokedOps).peer.numInFlight.toNat < Peer.maxInFlight :=
  ⟨_, rfl, by decide, by decide, by decide⟩

end Connection

end SimpleTorrent
