/-
What one step of the client does.

- `handleMessage_spec`, `resumeMain_spec`, `resumeSpawned_spec`: a coroutine of a peer goes on. Whatever it has received,
  nothing faults, and all that changes is the peer itself, the piece manager, and what that saves.
- `Effect`: all that a step can do. `step_effect`: a step succeeds, has one of these effects, and keeps the parts.
-/
import SimpleTorrent.Client.Parts
import SimpleTorrent.Properties.Handshake

namespace SimpleTorrent

open Checked Store MessageUtil Buffer

namespace Routines

variable {s : Routines}

/-- in the loop of `receive_messages` -/
def talking : MainRoutine → Bool
  | .header | .type _ | .payload _ _ => true
  | _ => false

theorem receiveMessages_spawned (s : Routines) : s.receiveMessages.spawned = s.spawned := by
  rw [receiveMessages]
  split_ifs <;> rfl

/-- `send_messages` is spawned once -/
theorem step_spawned (h : s.spawned ≠ .notSpawned) (o : Op) : (s.step o).spawned ≠ .notSpawned := by
  cases o with
  | timeout => exact h
  | main o =>
    rcases eq_or_ne s.main .ended with hs | hs
    · rwa [step, resumeMain_ended hs]
    · by_cases hu : s.Unrecorded (.main o)
      · rwa [step, resumeMain_created hu.1 hu.2]
      · rcases (resumeMain_proceeds o hs hu).spawned with ⟨hsame, -⟩ | ⟨-, hsame, -⟩
        · rwa [step, hsame]
        · rw [step, hsame]
          simp
  | spawned o =>
    by_cases hend : s.spawned = .ended
    · rwa [step, resumeSpawned_ended (Or.inr hend)]
    · rcases resumeSpawned_cases o h hend with ⟨-, hu⟩ | ⟨-, hu⟩
      · rw [step, hu.spawned.1]
        simp
      · rcases hu.spawned with ⟨hu, -⟩ | ⟨hu | hu, -⟩ <;> simp [step, hu]

/-- `send_messages` does not move `start` -/
theorem resumeSpawned_main (r : Routines) (o : SpawnedOutcome) :
    (r.resumeSpawned o).main = r.main ∧ (r.spawned = .notSpawned → r.resumeSpawned o = r) := by
  refine ⟨?_, fun hs => resumeSpawned_ended (Or.inl hs) o⟩
  by_cases hend : r.spawned = .notSpawned ∨ r.spawned = .ended
  · rw [resumeSpawned_ended hend]
  · rw [not_or] at hend
    rcases resumeSpawned_cases o hend.1 hend.2 with ⟨-, hu⟩ | ⟨-, hu⟩
    · exact hu.main.1
    · exact hu.main.1

/-- `start` comes to its loop only from there -/
theorem resumeMain_talking {o : MainOutcome} (h : s.main ≠ .sendInterested)
    (ht : talking (s.resumeMain o).main = true) : talking s.main = true := by
  cases hmain : s.main with
  | sendInterested => exact absurd hmain h
  | header | type | payload => rfl
  | ended =>
    rw [resumeMain_ended hmain, hmain] at ht
    exact ht
  | created | connect | sendHandshake | receiveHandshake =>
    simp only [resumeMain, hmain, leave] at ht
    split_ifs at ht <;> exact ht

/-- `start` comes to its loop only by spawning the other coroutine -/
theorem step_talking (h : talking s.main = true → s.spawned ≠ .notSpawned) (o : Op)
    (ht : talking (s.step o).main = true) : (s.step o).spawned ≠ .notSpawned := by
  by_cases hs : s.spawned = .notSpawned
  · have hm : ¬ talking s.main = true := fun hm => h hm hs
    cases o with
    | timeout => exact absurd ht hm
    | spawned o =>
      rw [step, resumeSpawned_ended (Or.inl hs)] at ht
      exact absurd ht hm
    | main o =>
      rw [step] at ht ⊢
      cases hmain : s.main with
      | sendInterested =>
        simp only [resumeMain, hmain] at ht ⊢
        split_ifs at ht ⊢ with hthrows
        · cases ht
        · rw [receiveMessages_spawned]
          simp
      | header | type | payload => exact absurd (by rw [hmain]; rfl) hm
      | ended =>
        rw [resumeMain_ended hmain] at ht
        exact absurd ht hm
      | created | connect | sendHandshake | receiveHandshake =>
        simp only [resumeMain, hmain, leave] at ht
        split_ifs at ht <;> cases ht
  · exact step_spawned hs o

theorem run_talking (ops : List Op) (h : talking (run ops).main = true) : (run ops).spawned ≠ .notSpawned := by
  have hstep : ∀ s o, (talking s.main = true → s.spawned ≠ .notSpawned) →
      talking (step s o).main = true → (step s o).spawned ≠ .notSpawned := fun _ o hs => step_talking hs o
  exact Runs.foldl_inv (I := fun s : Routines => talking s.main = true → s.spawned ≠ .notSpawned) hstep
    (fun ht => by cases ht) ops h

end Routines

namespace Client

open PeerManager (ids)

/-! ## What is written -/

/-- the request that `select_next_block` makes for a block number of a piece -/
def Asks (c : Config) (request : BlockRequest) : Prop :=
  ∃ x < c.numPieces, ∃ k < c.layout.blocks x, request = c.request x k

/-- what the coroutines of a peer hand to its socket in a step -/
def Writes (c : Config) (hello : Bytes) (r : Routines) : Routines.Op → List Bytes → Prop
  | .main o, sent => sent =
    match r.main with
    | .connect => if o.throws then [] else [hello]
    | .receiveHandshake => if !o.throws && o.continueDownload then [sendInterested] else []
    | _ => []
  | .spawned _, sent => sent = [] ∨
    r.spawned ≠ .notSpawned ∧ ∃ request, Asks c request ∧ sent = [constructRequestMessage request]
  | .timeout, sent => sent = []

/-- in its loop, `receive_messages` has a header of four bytes -/
def Sized (p : PeerObject) : Prop := Routines.talking p.routines.main = true → p.header.length = 4

/-- a step of the coroutines of a peer -/
structure Goes (c : Config) (hello : Bytes) (p p' : PeerObject) : Prop where
  handle : p'.handle = p.handle
  sized : Sized p → Sized p'
  step : ∃ o sent, p'.routines = p.routines.step o ∧ p'.sent = p.sent ++ sent ∧ Writes c hello p.routines o sent

/-- a peer is registered by itself, when it can be asked for blocks -/
def Registers (p : PeerObject) (s t : Client) : Prop :=
  ∀ id, t.pieceManager.peersBitfieldMap.lookup id ≠ none → s.pieceManager.peersBitfieldMap.lookup id ≠ none ∨
    id = p.handle.peerNumId ∧ p.routines.spawned ≠ .notSpawned

variable {fs : FileSystem} {c : Config} {peerIps : List PeerConnInfo} {sha1 : Bytes → Bytes} {hello : Bytes}
  {s t : Client} {i : ℕ} {p : PeerObject}

/-! ## The coroutines of a peer -/

/-- what the coroutines rely on -/
structure Ready (fs : FileSystem) (c : Config) (peerIps : List PeerConnInfo) (sha1 : Bytes → Bytes) (hello : Bytes)
    (s : Client) : Prop where
  parts : s.Parts fs c peerIps sha1
  numPieces : s.numPieces = PieceManager.bitfieldLength c
  hello : SimpleTorrent.sendHandshake s.infoHash s.ourId = .ok hello

/-- a bitfield with a bit set is registered -/
theorem handleMessage_bitfield (h : s.Ready fs c peerIps sha1 hello) (hc : c.data.Consistent) {id : ℕ}
    (hid : id ∈ ids s.pool.peers) {type : UInt8} {payload : Bytes} (ht : messageType type = .bitfield)
    (hbits : ¬ (getPeerBitfield payload s.numPieces).all (· == 0) = true) : ∃ t,
      s.handleMessage sha1 id type payload = .ok (false, t) ∧ t.Parts fs c peerIps sha1 ∧ Calls c sha1 s t ∧
      t.pieceManager = s.pieceManager.updatePieceFrequencies (getPeerBitfield payload s.numPieces) id := by
  have hfits : PieceManager.Op.Fits c (.updatePieceFrequencies (getPeerBitfield payload s.numPieces) id) := by
    rw [PieceManager.Op.Fits, length_getPeerBitfield, h.numPieces]
  obtain ⟨t, hput, hparts, hcalls, hmanager⟩ := h.parts.call hc hfits rfl fun q hq => by
    rw [PieceManager.lookup_updatePieceFrequencies] at hq
    split_ifs at hq with hqid
    · exact hqid ▸ hid
    · exact h.parts.registered q hq
  refine ⟨t, ?_, hparts, hcalls, hmanager⟩
  simp only [handleMessage, ht, if_neg hbits, hput, ok_bind, pure_eq_ok]

/-- a block goes to the piece manager -/
theorem handleMessage_piece (h : s.Ready fs c peerIps sha1 hello) (hc : c.data.Consistent) (id : ℕ) {type : UInt8}
    {payload : Bytes} {block : Block} (ht : messageType type = .piece) (hblock : pieceBlock payload = some block) :
    ∃ t, s.handleMessage sha1 id type payload = .ok (false, t) ∧ t.Parts fs c peerIps sha1 ∧ Calls c sha1 s t ∧
      s.pieceManager.addBlock sha1 id block = .ok t.pieceManager := by
  obtain ⟨m, hm, hkeeps, -⟩ := PieceManager.addBlock_spec h.parts.inv.1 id block
  obtain ⟨t, hput, hparts, hcalls, rfl⟩ := h.parts.call hc (o := .addBlock id block) trivial hm (by
    rw [hkeeps.bitfields]
    exact h.parts.registered)
  refine ⟨t, ?_, hparts, hcalls, hm⟩
  simp only [handleMessage, ht, hblock, access_ok.2 hm, ok_bind, hput, pure_eq_ok]

/-- a message, whatever it is -/
theorem handleMessage_spec (h : s.Ready fs c peerIps sha1 hello) (hc : c.data.Consistent) {id : ℕ}
    (hid : id ∈ ids s.pool.peers) (type : UInt8) (payload : Bytes) : ∃ throws t,
      s.handleMessage sha1 id type payload = .ok (throws, t) ∧ t.Parts fs c peerIps sha1 ∧ Calls c sha1 s t ∧
      ∀ q, t.pieceManager.peersBitfieldMap.lookup q ≠ none →
        s.pieceManager.peersBitfieldMap.lookup q ≠ none ∨ q = id := by
  cases ht : messageType type with
  | bitfield =>
    by_cases hbits : (getPeerBitfield payload s.numPieces).all (· == 0) = true
    · exact ⟨true, s, by simp only [handleMessage, ht, if_pos hbits], h.parts, h.parts.calls_refl, fun q hq => Or.inl hq⟩
    · obtain ⟨t, hok, hparts, hcalls, hmanager⟩ := handleMessage_bitfield h hc hid ht hbits
      refine ⟨false, t, hok, hparts, hcalls, fun q hq => ?_⟩
      rw [hmanager, PieceManager.lookup_updatePieceFrequencies] at hq
      split_ifs at hq with hqid
      · exact Or.inr hqid
      · exact Or.inl hq
  | piece =>
    cases hblock : pieceBlock payload with
    | none =>
      exact ⟨false, s, by simp only [handleMessage, ht, hblock], h.parts, h.parts.calls_refl, fun q hq => Or.inl hq⟩
    | some block =>
      obtain ⟨t, hok, hparts, hcalls, hm⟩ := handleMessage_piece h hc id ht hblock
      obtain ⟨m, hm', hkeeps, -⟩ := PieceManager.addBlock_spec h.parts.inv.1 id block
      obtain rfl : m = t.pieceManager := Except.ok.inj (hm'.symm.trans hm)
      exact ⟨false, t, hok, hparts, hcalls, fun q hq => Or.inl (by rwa [hkeeps.bitfields] at hq)⟩
  | _ => exact ⟨false, s, by simp only [handleMessage, ht], h.parts, h.parts.calls_refl, fun q hq => Or.inl hq⟩

/-- a read does not change the size of its buffer -/
theorem length_fill (o : Completion) (buffer : Bytes) : (o.fill buffer).length = buffer.length := by
  rw [Completion.fill, Splice.length_splice]
  rw [Nat.zero_add, List.length_take]
  exact min_le_left _ _

/-- the response is 68 bytes long, whatever was read of it -/
theorem parse_total (o : Completion) (infoHash : Bytes) :
    ∃ peerId, parseHandshakeResponse (o.fill (o.uninitialised 68)) infoHash = .ok peerId := by
  have hbuffer : (o.uninitialised 68).length = 68 := by
    rw [Completion.uninitialised]
    simp
  have hlen : (o.fill (o.uninitialised 68)).length = 68 := (length_fill o _).trans hbuffer
  by_cases h : ∃ reservedBytes binaryInfoHash id : Bytes, reservedBytes.length = 8 ∧ binaryInfoHash.length = 20 ∧
      id.length = 20 ∧ o.fill (o.uninitialised 68) = createHandshake reservedBytes binaryInfoHash id
  · obtain ⟨reservedBytes, binaryInfoHash, id, hres, hhash, hid, heq⟩ := h
    exact ⟨_, by rw [heq]; exact parse_handshake infoHash hres hhash hid⟩
  · refine ⟨none, parse_other hlen ?_⟩
    intro reservedBytes binaryInfoHash id hres hhash hid heq
    exact h ⟨reservedBytes, binaryInfoHash, id, hres, hhash, hid, heq⟩

/-- **`start` goes on**, whatever has come. -/
theorem resumeMain_spec (h : s.Ready fs c peerIps sha1 hello) (hc : c.data.Consistent) (hp : s.objects[i]? = some p)
    (o : Completion) : ∃ u p', s.resumeMain sha1 i p o = .ok (u.putObject i p') ∧ u.Parts fs c peerIps sha1 ∧
      Calls c sha1 s u ∧ Goes c hello p p' ∧ Registers p s u := by
  -- a step that calls nothing, and writes nothing
  have hplain : ∀ (out : MainOutcome) (header : Bytes), p.routines.main ≠ .connect →
      p.routines.main ≠ .receiveHandshake →
      (header.length = 4 ∨ p.routines.main ≠ .sendInterested ∧ header.length = p.header.length) →
      Goes c hello p { p with routines := p.routines.resumeMain out, header := header } := by
    intro out header hconnect hreceive hheader
    refine ⟨rfl, fun h ht => ?_, .main out, [], rfl, (List.append_nil _).symm, ?_⟩
    · rcases hheader with hheader | ⟨hmain, hsame⟩
      · exact hheader
      · exact hsame.trans (h (Routines.resumeMain_talking hmain ht))
    simp only [Writes]
  have hsame : Registers p s s := fun q hq => Or.inl hq
  cases hm : p.routines.main with
  | created | sendHandshake | ended | type =>
    simp only [resumeMain, hm]
    exact ⟨s, _, rfl, h.parts, h.parts.calls_refl,
      hplain _ _ (by simp [hm]) (by simp [hm]) (Or.inr ⟨by simp [hm], rfl⟩), hsame⟩
  | sendInterested =>
    simp only [resumeMain, hm]
    exact ⟨s, _, rfl, h.parts, h.parts.calls_refl,
      hplain _ _ (by simp [hm]) (by simp [hm]) (Or.inl List.length_replicate), hsame⟩
  | header =>
    simp only [resumeMain, hm]
    exact ⟨s, _, rfl, h.parts, h.parts.calls_refl,
      hplain _ _ (by simp [hm]) (by simp [hm]) (Or.inr ⟨by simp [hm], length_fill o p.header⟩), hsame⟩
  | connect =>
    simp only [resumeMain, hm, h.hello]
    cases o.throws with
    | true =>
      refine ⟨s, _, rfl, h.parts, h.parts.calls_refl, ⟨rfl, fun h ht => h (Routines.resumeMain_talking (by simp [hm]) ht),
        .main ⟨true, false, 0, 0⟩, [], rfl, rfl, ?_⟩, hsame⟩
      simp [Writes, hm]
    | false =>
      refine ⟨s, _, rfl, h.parts, h.parts.calls_refl, ⟨rfl, fun h ht => h (Routines.resumeMain_talking (by simp [hm]) ht),
        .main ⟨false, false, 0, 0⟩, [hello], rfl, rfl, ?_⟩, hsame⟩
      simp [Writes, hm]
  | receiveHandshake =>
    obtain ⟨peerId, hparse⟩ := parse_total o s.infoHash
    simp only [resumeMain, hm, hparse]
    cases o.throws with
    | true =>
      refine ⟨s, _, rfl, h.parts, h.parts.calls_refl,
        ⟨rfl, fun h ht => h (Routines.resumeMain_talking (by simp [hm]) ht),
          .main ⟨true, s.continueDownload, 0, 0⟩, [], rfl, rfl, ?_⟩, hsame⟩
      simp [Writes, hm]
    | false =>
      refine ⟨s, _, rfl, h.parts, h.parts.calls_refl,
        ⟨rfl, fun h ht => h (Routines.resumeMain_talking (by simp [hm]) ht),
          .main ⟨peerId.isNone, s.continueDownload, 0, 0⟩, _, rfl, rfl, ?_⟩, hsame⟩
      simp only [Writes, hm]
      cases peerId <;> rfl
  | payload messageLength messageType =>
    simp only [resumeMain, hm]
    cases o.throws with
    | true =>
      exact ⟨s, _, rfl, h.parts, h.parts.calls_refl,
        hplain _ _ (by simp [hm]) (by simp [hm]) (Or.inr ⟨by simp [hm], rfl⟩), hsame⟩
    | false =>
      obtain ⟨ops, hops⟩ := h.parts.routines p (List.mem_of_getElem? hp)
      have hspawned : p.routines.spawned ≠ .notSpawned := by
        rw [hops] at hm ⊢
        exact Routines.run_talking ops (by rw [hm]; rfl)
      obtain ⟨throws, t, ht, hparts, hcalls, hreg⟩ := handleMessage_spec h hc (h.parts.mem_ids (List.mem_of_getElem? hp))
        messageType (o.fill (List.replicate (messageLength - 1) 0))
      simp only [Bool.false_eq_true, if_false, ht, ok_bind]
      exact ⟨t, _, rfl, hparts, hcalls, hplain _ _ (by simp [hm]) (by simp [hm]) (Or.inr ⟨by simp [hm], rfl⟩),
        fun q hq => (hreg q hq).imp_right fun hq => ⟨hq, hspawned⟩⟩

/-- the piece manager is asked for a block -/
theorem select_call (h : s.Ready fs c peerIps sha1 hello) (hc : c.data.Consistent)
    (hsmall : min c.bufferSize.toNat c.numPieces < 2 ^ 31) (id : ℕ) (order : List ℕ) : ∃ request t,
      s.pieceManager.selectNextBlock id order = .ok (request, t.pieceManager) ∧
      s.putManager t.pieceManager = .ok t ∧ t.Parts fs c peerIps sha1 ∧ Calls c sha1 s t := by
  obtain ⟨hinv, hfits⟩ := h.parts.inv
  obtain ⟨request, m, hm⟩ := PieceManager.selectNextBlock_total hinv hfits
    (lt_of_le_of_lt hinv.keys_length_le hsmall) id order
  have hstep : PieceManager.step sha1 s.pieceManager (.selectNextBlock id order) = .ok m := by
    rw [PieceManager.step, hm]
    rfl
  obtain ⟨t, hput, hparts, hcalls, rfl⟩ := h.parts.call hc (o := .selectNextBlock id order) trivial hstep (by
    rw [PieceManager.selectNextBlock_bitfields hinv hm]
    exact h.parts.registered)
  exact ⟨request, t, hm, hput, hparts, hcalls⟩

/-- **`send_messages` goes on**, and may ask for a block. -/
theorem resumeSpawned_spec (h : s.Ready fs c peerIps sha1 hello) (hc : c.data.Consistent)
    (hsmall : min c.bufferSize.toNat c.numPieces < 2 ^ 31) (p : PeerObject) (throws : Bool) (order : List ℕ) :
    ∃ u p', s.resumeSpawned i p throws order = .ok (u.putObject i p') ∧ u.Parts fs c peerIps sha1 ∧
      Calls c sha1 s u ∧ Goes c hello p p' ∧ Registers p s u := by
  have hsized : ∀ (o : SpawnedOutcome) (sent : List Bytes), Sized p →
      Sized { p with routines := p.routines.resumeSpawned o, sent := p.sent ++ sent } := by
    intro o sent h ht
    rw [(Routines.resumeSpawned_main p.routines o).1] at ht
    exact h ht
  rw [resumeSpawned]
  split_ifs with hsel
  · have hinv := h.parts.inv.1
    obtain ⟨request, t, hm, hput, hparts, hcalls⟩ := select_call h hc hsmall p.handle.peerNumId order
    simp only [access_ok.2 hm, ok_bind, hput]
    refine ⟨t, _, rfl, hparts, hcalls, ⟨rfl, hsized _ _,
      .spawned ⟨throws, if request.isSome then .request else .none⟩, _, rfl, rfl, ?_⟩,
      fun q hq => Or.inl (by rwa [PieceManager.selectNextBlock_bitfields hinv hm] at hq)⟩
    cases request with
    | none => exact Or.inl rfl
    | some request =>
      refine Or.inr ⟨?_, request, ?_, rfl⟩
      · intro hs
        simp [Routines.selects, hs] at hsel
      · rcases PieceManager.selectNextBlock_cases hinv hm with
          ⟨-, hnone, -⟩ | ⟨bf, chosen, u, -, -, hmoves, -, ⟨-, hnone, -⟩ | ⟨x, sl, -, hx, hsl, hreq, -⟩⟩
        · cases hnone
        · cases hnone
        · obtain ⟨k, hk, rfl⟩ := Option.map_eq_some_iff.1 hreq.symm
          have hu := hmoves.inv hinv
          obtain ⟨q, hq, -⟩ := PieceManager.state_toStore hx
          have hlt := (List.getElem?_eq_some_iff.1 hq).1
          rw [hu.shape.size] at hlt
          exact ⟨x, hlt, k, (hu.good.inv.piece x).blocks sl hsl ▸ firstMissing_lt hk, rfl⟩
  · exact ⟨s, _, rfl, h.parts, h.parts.calls_refl,
      ⟨rfl, hsized ⟨throws, .none⟩ [], .spawned ⟨throws, .none⟩, [], rfl, (List.append_nil _).symm, Or.inl rfl⟩,
      fun q hq => Or.inl hq⟩

/-! ## All steps -/

/-- no peers are left, and every address has been tried twice -/
def Exhausted (peerIps : List PeerConnInfo) (s : Client) : Prop :=
  s.objects = [] ∧ ∀ i < peerIps.length, s.pool.peersState[i]? = some .disconnected2

/-- a round of the pool that has kept some of the peers, and added `new` ones -/
def afterRound (s : Client) (order : List ℕ) (pool : PeerManager) (new : List PeerHandle) : Client :=
  { s with
    pieceManager := removePeers s.pieceManager (s.arrange order).2
    session := { s.session with
      stopDownload := s.session.stopDownload || ((s.arrange order).1 ++ new.map PeerObject.create).isEmpty }
    pool := pool
    objects := (s.arrange order).1 ++ new.map PeerObject.create
    poolLoop := .sleepAfter }

/-- all that a step can do -/
inductive Effect (c : Config) (peerIps : List PeerConnInfo) (sha1 : Bytes → Bytes) (hello : Bytes) (s : Client) :
    Client → Prop where
  | idle : Effect c peerIps sha1 hello s s
  /-- a coroutine of a peer goes on -/
  | peer {i : ℕ} {p p' : PeerObject} {u : Client} (hlive : s.poolLoop ≠ .ended) (hp : s.objects[i]? = some p)
      (hcalls : Calls c sha1 s u) (hgoes : Goes c hello p p') (hreg : Registers p s u) :
      Effect c peerIps sha1 hello s (u.putObject i p')
  /-- the pool tests whether to go on -/
  | test {next : PoolLoop} (hlive : s.poolLoop ≠ .ended) (hnext : next = .ended ↔ s.continueDownload = false) :
      Effect c peerIps sha1 hello s { s with poolLoop := next }
  | round {order : List ℕ} {pool : PeerManager} {new : List PeerHandle} (hlive : s.poolLoop ≠ .ended)
      (hcontinue : s.continueDownload = true)
      (hend : (s.afterRound order pool new).objects = [] → (s.afterRound order pool new).Exhausted peerIps) :
      Effect c peerIps sha1 hello s (s.afterRound order pool new)
  | returned (hended : s.poolLoop = .ended) : Effect c peerIps sha1 hello s s.setStopDownload
  | writer {session : Session} (hstop : session.stopDownload = s.session.stopDownload) :
      Effect c peerIps sha1 hello s { s with session := session }

theorem Parts.setStopDownload (h : s.Parts fs c peerIps sha1) : s.setStopDownload.Parts fs c peerIps sha1 := by
  obtain ⟨s₀, ops, hnew, hrun, hsaves⟩ := h.session
  have hsame : Session.saves (ops ++ [.setStopDownload]) = Session.saves ops :=
    List.filterMap_append.trans (List.append_nil _)
  exact { h with
    session := ⟨s₀, ops ++ [.setStopDownload], hnew, Session.run_append hrun rfl, hsame.trans hsaves⟩ }

theorem Parts.writer (h : s.Parts fs c peerIps sha1) (hc : c.data.Consistent) : ∃ session,
    s.session.step .writer = .ok session ∧ Parts fs c peerIps sha1 { s with session := session } ∧
      session.stopDownload = s.session.stopDownload := by
  obtain ⟨hdisk, -, -⟩ := h.disk hc
  obtain ⟨m, hm, -, -⟩ := FileManager.fileWriter_onDisk hdisk s.session.stopDownload
  have hstep : s.session.step .writer = .ok ⟨m, s.session.stopDownload⟩ := by rw [Session.step, hm]; rfl
  have hone : s.session.run [.writer] = .ok ⟨m, s.session.stopDownload⟩ := by
    rw [Session.run, runM_cons, hstep, ok_bind, runM_nil]
  obtain ⟨s₀, ops, hnew, hrun, hsaves⟩ := h.session
  have hsame : Session.saves (ops ++ [.writer]) = Session.saves ops := List.filterMap_append.trans (List.append_nil _)
  exact ⟨_, hstep,
    { h with session := ⟨s₀, ops ++ [.writer], hnew, Session.run_append hrun hone, hsame.trans hsaves⟩ }, rfl⟩

/-- a step of an object while the network thread runs -/
theorem onObject_spec {f : PeerObject → Except PoolFault Client} (h : s.Ready fs c peerIps sha1 hello)
    (hf : ∀ p, s.objects[i]? = some p → ∃ u p', f p = .ok (u.putObject i p') ∧ u.Parts fs c peerIps sha1 ∧
      Calls c sha1 s u ∧ Goes c hello p p' ∧ Registers p s u) :
    ∃ t, s.onObject i f = .ok t ∧ t.Parts fs c peerIps sha1 ∧ Effect c peerIps sha1 hello s t := by
  rw [onObject]
  split_ifs with hended
  · exact ⟨s, rfl, h.parts, .idle⟩
  · cases hp : s.objects[i]? with
    | none => exact ⟨s, rfl, h.parts, .idle⟩
    | some p =>
      obtain ⟨u, p', hu, hparts, hcalls, hgoes, hreg⟩ := hf p hp
      refine ⟨_, hu, hparts.putObject (p := p) ?_ hgoes.handle ?_, .peer hended hp hcalls hgoes hreg⟩
      · rw [hcalls.frame]
        exact hp
      · obtain ⟨o, sent, hroutines, -⟩ := hgoes.step
        exact ⟨o, hroutines⟩

theorem Parts.loop (h : s.Parts fs c peerIps sha1) (next : PoolLoop) :
    Parts fs c peerIps sha1 { s with poolLoop := next } := { h with }

theorem testPoolLoop_spec (hello : Bytes) (h : s.Parts fs c peerIps sha1) (hlive : s.poolLoop ≠ .ended) :
    s.testPoolLoop.Parts fs c peerIps sha1 ∧ Effect c peerIps sha1 hello s s.testPoolLoop := by
  rw [testPoolLoop]
  split_ifs with hcontinue
  · exact ⟨h.loop _, .test hlive (by simp [hcontinue])⟩
  · exact ⟨h.loop _, .test hlive (by simp [hcontinue])⟩

/-- **The pool goes on.** -/
theorem cleanupAndOpenConnections_spec (h : s.Parts fs c peerIps sha1) (hn : peerIps.length ≤ 2 ^ 32) (order : List ℕ) :
    ∃ t, s.cleanupAndOpenConnections order = .ok t ∧ t.Parts fs c peerIps sha1 ∧ Effect c peerIps sha1 hello s t := by
  cases hloop : s.poolLoop with
  | created | sleepAfter =>
    obtain ⟨hparts, heffect⟩ := testPoolLoop_spec hello h (by simp [hloop])
    exact ⟨_, by simp only [cleanupAndOpenConnections, hloop], hparts, heffect⟩
  | ended => exact ⟨s, by simp only [cleanupAndOpenConnections, hloop], h, .idle⟩
  | sleepBefore =>
    have hlive : s.poolLoop ≠ .ended := by simp [hloop]
    simp only [cleanupAndOpenConnections, hloop]
    split_ifs with hstop
    · rw [Bool.not_eq_true'] at hstop
      exact ⟨_, rfl, h.loop _, .test hlive (by simp [hstop])⟩
    · rw [Bool.not_eq_true', Bool.not_eq_false] at hstop
      obtain ⟨pool, hcleanup, hparts⟩ := h.cleanup hn order
      obtain ⟨pool', new, hopen, hparts', hend⟩ := hparts.connect hn
      rw [hcleanup, ok_bind, hopen, ok_bind]
      have hround : (if ((s.arrange order).1 ++ new.map PeerObject.create).length = 0 then
            Client.setStopDownload { s with
              pieceManager := removePeers s.pieceManager (s.arrange order).2, pool := pool'
              objects := (s.arrange order).1 ++ new.map PeerObject.create }
          else { s with
            pieceManager := removePeers s.pieceManager (s.arrange order).2, pool := pool'
            objects := (s.arrange order).1 ++ new.map PeerObject.create }) =
          { s.afterRound order pool' new with poolLoop := s.poolLoop } := by
        simp only [afterRound]
        split_ifs with hnil
        · rw [List.length_eq_zero_iff] at hnil
          simp only [Client.setStopDownload, hnil, List.isEmpty_nil, Bool.or_true]
        · rw [List.length_eq_zero_iff] at hnil
          simp only [List.isEmpty_eq_false_iff.2 hnil, Bool.or_false]
      simp only [hround, pure_eq_ok]
      refine ⟨_, rfl, ?_, .round hlive hstop fun hnil => ⟨hnil, hend hnil⟩⟩
      have hparts'' : Parts fs c peerIps sha1 { s.afterRound order pool' new with poolLoop := s.poolLoop } := by
        rw [← hround]
        split_ifs
        · exact hparts'.setStopDownload
        · exact hparts'
      exact hparts''.loop _

/-- **One step** succeeds, and does one of these things. -/
theorem step_effect (h : s.Ready fs c peerIps sha1 hello) (hc : c.data.Consistent)
    (hsmall : min c.bufferSize.toNat c.numPieces < 2 ^ 31) (hn : peerIps.length ≤ 2 ^ 32) (o : Op) :
    ∃ t, step sha1 s o = .ok t ∧ t.Parts fs c peerIps sha1 ∧ Effect c peerIps sha1 hello s t := by
  cases o with
  | main i o => exact onObject_spec h fun p hp => resumeMain_spec h hc hp o
  | spawned i throws order => exact onObject_spec h fun p _ => resumeSpawned_spec h hc hsmall p throws order
  | timeout i =>
    exact onObject_spec h fun p _ => ⟨s, _, rfl, h.parts, h.parts.calls_refl,
      ⟨rfl, id, .timeout, [], rfl, (List.append_nil _).symm, rfl⟩, fun q hq => Or.inl hq⟩
  | poolLoop order => exact cleanupAndOpenConnections_spec h.parts hn order
  | returned =>
    simp only [step]
    split_ifs with hended
    · exact ⟨_, rfl, h.parts.setStopDownload, .returned hended⟩
    · exact ⟨s, rfl, h.parts, .idle⟩
  | writer =>
    obtain ⟨session, hsession, hparts, hstop⟩ := h.parts.writer hc
    exact ⟨_, by rw [step, access_ok.2 hsession]; rfl, hparts, .writer hstop⟩

/-- what does not change -/
theorem Effect.constants (h : Effect c peerIps sha1 hello s t) :
    t.numPieces = s.numPieces ∧ t.infoHash = s.infoHash ∧ t.ourId = s.ourId := by
  cases h with
  | peer hlive hp hcalls hgoes hreg =>
    rw [hcalls.frame]
    exact ⟨rfl, rfl, rfl⟩
  | _ => exact ⟨rfl, rfl, rfl⟩

theorem Ready.effect (h : s.Ready fs c peerIps sha1 hello) (hparts : t.Parts fs c peerIps sha1)
    (he : Effect c peerIps sha1 hello s t) : t.Ready fs c peerIps sha1 hello := by
  obtain ⟨hnum, hinfo, hid⟩ := he.constants
  exact ⟨hparts, hnum.trans h.numPieces, by rw [hinfo, hid]; exact h.hello⟩

end Client

end SimpleTorrent
