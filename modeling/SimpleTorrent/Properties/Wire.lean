/-
What the client writes to its peers.

- `Conversation`: nothing, the handshake, or the handshake, an Interested message, and requests for blocks.
- `Conforms`: how far the conversation has come when `start` is suspended. `Effect.conforms`: every step keeps this.
- `speaks_the_protocol`: in every run, what has been handed to the socket of a peer is the handshake for the torrent,
  followed by whole messages: Interested, and then Requests, each of them the one for a block number of a piece. (That
  the block lies in the piece takes more: see `Properties/Tiling`.)
-/
import SimpleTorrent.Properties.Download
import SimpleTorrent.Properties.RoundTrip

namespace SimpleTorrent

open Checked MessageUtil

/-- a message that is written is read -/
theorem messages_constructMessage (type : UInt8) {payload : Bytes} (h : payload.length + 1 < 2 ^ 32) (rest : Bytes) :
    messages (constructMessage type payload ++ rest) = (type, payload) :: messages rest := by
  have hlen : (type :: payload).length = getHeaderLength (writeUint32 (payload.length + 1)) := by
    have hread := readUint32_writeUint32 h []
    rw [List.append_nil] at hread
    rw [getHeaderLength, hread, List.length_cons]
  rw [constructMessage, Nat.mod_eq_of_lt h, messages_cons rfl hlen]
  rfl

namespace Client

variable {fs : FileSystem} {data : TorrentMetadata} {peerIps : List PeerConnInfo} {sha1 : Bytes → Bytes}
  {ourId hello : Bytes} {s t : Client} {c : Config} {p p' : PeerObject} {sent : List Bytes}

/-! ## Conversations -/

inductive Conversation (c : Config) (hello : Bytes) : List Bytes → Prop where
  | nothing : Conversation c hello []
  | greeting : Conversation c hello [hello]
  | talk (requests : List BlockRequest) (h : ∀ request ∈ requests, Asks c request) :
      Conversation c hello (hello :: sendInterested :: requests.map constructRequestMessage)

/-- the part of a conversation in which requests are made -/
def Talk (c : Config) (hello : Bytes) (sent : List Bytes) : Prop := ∃ requests : List BlockRequest,
  (∀ request ∈ requests, Asks c request) ∧ sent = hello :: sendInterested :: requests.map constructRequestMessage

theorem Talk.conversation (h : Talk c hello sent) : Conversation c hello sent := by
  obtain ⟨requests, hasks, rfl⟩ := h
  exact .talk requests hasks

theorem Talk.request (h : Talk c hello sent) {request : BlockRequest} (hr : Asks c request) :
    Talk c hello (sent ++ [constructRequestMessage request]) := by
  obtain ⟨requests, hasks, rfl⟩ := h
  refine ⟨requests ++ [request], ?_, by simp⟩
  intro r hmem
  rcases List.mem_append.1 hmem with hmem | hmem
  · exact hasks r hmem
  · exact List.mem_singleton.1 hmem ▸ hr

theorem talk_nil : Talk c hello [hello, sendInterested] := ⟨[], by simp, rfl⟩

theorem consumed_requests (requests : List BlockRequest) :
    Consumed (requests.map constructRequestMessage).flatten (requests.map fun r => (6, requestPayload r)) := by
  intro rest
  induction requests with
  | nil => rfl
  | cons r requests ih =>
    rw [List.map_cons, List.flatten_cons, List.append_assoc, constructRequestMessage,
      messages_constructMessage 6 (by simp), ih]
    rfl

/-- what is read of a conversation: whole messages behind the handshake -/
theorem Conversation.read (h : Conversation c hello sent) : sent = [] ∨ ∃ stream, sent.flatten = hello ++ stream ∧
    (stream = [] ∨ ∃ requests : List BlockRequest, (∀ request ∈ requests, Asks c request) ∧
      Consumed stream ((2, []) :: requests.map fun r => (6, requestPayload r))) := by
  cases h with
  | nothing => exact Or.inl rfl
  | greeting => exact Or.inr ⟨[], by simp, Or.inl rfl⟩
  | talk requests hasks =>
    refine Or.inr ⟨_, List.flatten_cons, Or.inr ⟨requests, hasks, fun rest => ?_⟩⟩
    rw [List.flatten_cons, List.append_assoc, sendInterested, messages_constructMessage 2 (by decide),
      consumed_requests requests rest]
    rfl

/-! ## Where a conversation has come to -/

/-- what has been written when `start` is suspended before its loop -/
def written (hello : Bytes) : MainRoutine → Option (List Bytes)
  | .created | .connect => some []
  | .sendHandshake | .receiveHandshake => some [hello]
  | .sendInterested => some [hello, sendInterested]
  | .header | .type _ | .payload _ _ | .ended => none

structure Conforms (c : Config) (hello : Bytes) (p : PeerObject) : Prop where
  conversation : Conversation c hello p.sent
  written : ∀ sent, written hello p.routines.main = some sent → p.sent = sent
  talk : p.routines.spawned ≠ .notSpawned → Talk c hello p.sent

/-- before the loop -/
theorem Conforms.of_written (hm : Client.written hello p.routines.main = some p.sent)
    (hs : p.routines.spawned = .notSpawned) : Conforms c hello p := by
  refine ⟨?_, fun sent hsent => Option.some.inj (hm.symm.trans hsent), fun hne => absurd hs hne⟩
  cases hmain : p.routines.main with
  | created | connect =>
    rw [hmain] at hm
    exact Option.some.inj hm ▸ .nothing
  | sendHandshake | receiveHandshake =>
    rw [hmain] at hm
    exact Option.some.inj hm ▸ .greeting
  | sendInterested =>
    rw [hmain] at hm
    exact Option.some.inj hm ▸ talk_nil.conversation
  | header | type | payload | ended =>
    rw [hmain] at hm
    cases hm

/-- `start` ends before its loop -/
theorem Conforms.of_ended (h : Conversation c hello p.sent) (hm : p.routines.main = .ended)
    (hs : p.routines.spawned = .notSpawned) : Conforms c hello p :=
  ⟨h, fun sent hsent => by (rw [hm] at hsent; cases hsent), fun hne => absurd hs hne⟩

/-- in the loop, or behind it -/
theorem Talk.conforms (h : Talk c hello p.sent) (hm : Client.written hello p.routines.main = none) :
    Conforms c hello p :=
  ⟨h.conversation, fun sent hsent => by (rw [hm] at hsent; cases hsent), fun _ => h⟩

theorem written_receiveMessages (hello : Bytes) (r : Routines) : written hello r.receiveMessages.main = none := by
  rw [Routines.receiveMessages]
  split_ifs <;> rfl

/-- **A step of `start`** -/
theorem Conforms.main (h : Conforms c hello p) (hrun : ∃ ops, p.routines = Routines.run ops) {o : MainOutcome}
    (hr : p'.routines = p.routines.resumeMain o) (hs : p'.sent = p.sent ++ sent)
    (hw : Writes c hello p.routines (.main o) sent) : Conforms c hello p' := by
  obtain ⟨ops, hops⟩ := hrun
  have hearly : Routines.early p.routines.main = true → p.routines.spawned = .notSpawned := by
    rw [hops]
    exact (Routines.run_sound ops).early
  have htalking : Routines.talking p.routines.main = true → Talk c hello p.sent := by
    intro hm
    rw [hops] at hm
    exact h.talk (hops ▸ Routines.run_talking ops hm)
  have hwritten := h.written
  simp only [Writes] at hw
  cases hm : p.routines.main with
  | created =>
    simp only [hm] at hw hearly hwritten
    rw [hw, hwritten [] rfl] at hs
    simp only [Routines.resumeMain, hm] at hr
    split_ifs at hr
    · exact .of_ended (hs ▸ .nothing) (by rw [hr]) (by rw [hr]; exact hearly rfl)
    · exact .of_written (by rw [hr, hs]; rfl) (by rw [hr]; exact hearly rfl)
  | connect =>
    simp only [hm] at hw hearly hwritten
    rw [hw, hwritten [] rfl] at hs
    simp only [Routines.resumeMain, hm] at hr
    split_ifs at hr hs
    · exact .of_ended (hs ▸ .nothing) (by rw [hr]; rfl) (by rw [hr]; exact hearly rfl)
    · exact .of_written (by rw [hr, hs]; rfl) (by rw [hr]; exact hearly rfl)
  | sendHandshake =>
    simp only [hm] at hw hearly hwritten
    rw [hw, hwritten [hello] rfl] at hs
    simp only [Routines.resumeMain, hm] at hr
    split_ifs at hr
    · exact .of_ended (hs ▸ .greeting) (by rw [hr]; rfl) (by rw [hr]; exact hearly rfl)
    · exact .of_written (by rw [hr, hs]; rfl) (by rw [hr]; exact hearly rfl)
  | receiveHandshake =>
    simp only [hm] at hw hearly hwritten
    rw [hw, hwritten [hello] rfl] at hs
    simp only [Routines.resumeMain, hm] at hr
    split_ifs at hr with hthrows hcontinue
    · simp only [hthrows] at hs
      exact .of_ended (hs ▸ .greeting) (by rw [hr]; rfl) (by rw [hr]; exact hearly rfl)
    · have hcontinue : o.continueDownload = false := by simpa using hcontinue
      simp only [hcontinue, Bool.and_false] at hs
      exact .of_ended (hs ▸ .greeting) (by rw [hr]; rfl) (by rw [hr]; exact hearly rfl)
    · have hthrows : o.throws = false := by simpa using hthrows
      have hcontinue : o.continueDownload = true := by simpa using hcontinue
      simp only [hthrows, hcontinue] at hs
      exact .of_written (by rw [hr, hs]; rfl) (by rw [hr]; exact hearly rfl)
  | sendInterested =>
    simp only [hm] at hw hearly hwritten
    rw [hw, hwritten [hello, sendInterested] rfl] at hs
    have htalk : Talk c hello p'.sent := hs ▸ talk_nil
    simp only [Routines.resumeMain, hm] at hr
    split_ifs at hr
    · exact htalk.conforms (by rw [hr]; rfl)
    · exact htalk.conforms (by rw [hr]; exact written_receiveMessages hello _)
  | header | type | payload =>
    simp only [hm] at hw htalking
    rw [hw, List.append_nil] at hs
    have htalk : Talk c hello p'.sent := hs ▸ htalking rfl
    simp only [Routines.resumeMain, hm] at hr
    split_ifs at hr <;> exact htalk.conforms (by rw [hr]; first | rfl | exact written_receiveMessages hello _)
  | ended =>
    simp only [hm] at hw
    rw [hw, List.append_nil] at hs
    rw [Routines.resumeMain_ended hm] at hr
    exact ⟨hs ▸ h.conversation, by rw [hr, hs]; exact h.written, by rw [hr, hs]; exact h.talk⟩

/-- **A step of a peer** -/
theorem Conforms.goes (h : Conforms c hello p) (hrun : ∃ ops, p.routines = Routines.run ops) (hg : Goes c hello p p') :
    Conforms c hello p' := by
  obtain ⟨o, sent, hr, hs, hw⟩ := hg.step
  cases o with
  | main o => exact h.main hrun hr hs hw
  | timeout =>
    obtain rfl : sent = [] := hw
    rw [List.append_nil] at hs
    exact ⟨hs ▸ h.conversation, by rw [hr, hs]; exact h.written, by rw [hr, hs]; exact h.talk⟩
  | spawned o =>
    rw [Routines.step] at hr
    obtain ⟨hmain, hidle⟩ := Routines.resumeSpawned_main p.routines o
    by_cases hspawned : p.routines.spawned = .notSpawned
    · obtain rfl : sent = [] := hw.resolve_right fun hw => hw.1 hspawned
      rw [List.append_nil] at hs
      rw [hidle hspawned] at hr
      exact ⟨hs ▸ h.conversation, by rw [hr, hs]; exact h.written, by rw [hr, hs]; exact h.talk⟩
    · have htalk : Talk c hello p'.sent := by
        rw [hs]
        rcases hw with rfl | ⟨-, request, hasks, rfl⟩
        · rw [List.append_nil]
          exact h.talk hspawned
        · exact (h.talk hspawned).request hasks
      refine htalk.conforms ?_
      obtain ⟨ops, hops⟩ := hrun
      have hlate : Routines.early p.routines.main ≠ true := by
        intro hearly
        rw [hops] at hearly hspawned
        exact hspawned ((Routines.run_sound ops).early hearly)
      rw [hr, hmain]
      cases hm : p.routines.main with
      | header | type | payload | ended => rfl
      | _ => exact absurd (by rw [hm]; rfl) hlate

theorem Effect.conforms (h : ∀ p ∈ s.objects, Conforms c hello p) (hparts : s.Parts fs c peerIps sha1)
    (he : Effect c peerIps sha1 hello s t) : ∀ p ∈ t.objects, Conforms c hello p := by
  cases he with
  | @peer i p p' u hlive hp hcalls hgoes hreg =>
    intro q hq
    have hmem := List.mem_of_getElem? hp
    have hobjects : (u.putObject i p').objects = s.objects.set i p' := by rw [putObject, hcalls.frame]
    rw [hobjects] at hq
    rcases List.mem_or_eq_of_mem_set hq with hq | rfl
    · exact h q hq
    · exact (h p hmem).goes (hparts.routines p hmem) hgoes
  | @round order pool new hlive hcontinue hend =>
    intro q hq
    rcases List.mem_append.1 hq with hq | hq
    · exact h q ((s.arrange_perm order).subset (List.mem_append_left _ hq))
    · obtain ⟨handle, -, rfl⟩ := List.mem_map.1 hq
      exact .of_written rfl rfl
  | _ => exact h

/-- **The client speaks the protocol.** What it has handed to the socket of a peer is nothing, or its handshake followed
by whole messages: none, or Interested and then Requests, each the one for a block number of a piece. -/
theorem speaks_the_protocol (sha1 : Bytes → Bytes) (fs : FileSystem) (data : TorrentMetadata) (hd : data.Startable)
    (peerIps : List PeerConnInfo) (hn : peerIps.length ≤ 2 ^ 32) (ourId : Bytes) (ops : List Op) (s : Client)
    (hs : run sha1 fs data peerIps ourId ops = .ok s) :
    ∃ digest, data.infoHash = toHexString digest ∧ ∀ p ∈ s.objects, p.sent = [] ∨
      ∃ stream, p.sent.flatten = createHandshake (List.replicate 8 0) digest ourId ++ stream ∧
        (stream = [] ∨ ∃ requests : List BlockRequest, (∀ request ∈ requests, Asks hd.consistent.config request) ∧
          Consumed stream ((2, []) :: requests.map fun r => (6, requestPayload r))) := by
  obtain ⟨digest, hdigest, hhello⟩ := hd.hello ourId
  refine ⟨digest, hdigest, ?_⟩
  have hnew : ∀ s : Client, s.Fresh data → ∀ p ∈ s.objects,
      Conforms hd.consistent.config (createHandshake (List.replicate 8 0) digest ourId) p := by
    intro s hfresh p hp
    obtain ⟨handle, rfl⟩ := hfresh.objects p hp
    exact .of_written rfl rfl
  obtain ⟨t, ht, -, hconforms⟩ :=
    run_rule hd (opens_of_run hs) hn hhello hnew (fun _ _ hu hi he => he.conforms hi hu.parts) ops
  obtain rfl : t = s := Except.ok.inj (ht.symm.trans hs)
  exact fun p hp => (hconforms p hp).conversation.read

theorem speaks_the_protocol_tiny : ∃ s, run zeros .plain tiny onePeer [] fetch = .ok s ∧
    ∃ digest, tiny.infoHash = toHexString digest ∧ ∀ p ∈ s.objects, p.sent = [] ∨
      ∃ stream, p.sent.flatten = createHandshake (List.replicate 8 0) digest [] ++ stream ∧
        (stream = [] ∨ ∃ requests : List BlockRequest,
          (∀ request ∈ requests, Asks startable_tiny.consistent.config request) ∧
          Consumed stream ((2, []) :: requests.map fun r => (6, requestPayload r))) := by
  obtain ⟨s, hs, -⟩ := run_fetch
  exact ⟨s, hs, speaks_the_protocol zeros .plain tiny startable_tiny onePeer (by decide) [] fetch s hs⟩

end Client

end SimpleTorrent
