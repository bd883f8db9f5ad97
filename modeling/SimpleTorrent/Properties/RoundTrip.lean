/-
What a client of this program would understand of what this program writes.

- `receive`: the receive loop on a stream of bytes; each read gets what it asks for, as long as there is enough.
- `receive_item`: one item is consumed whole, and handled once if it is a message.
- `round_trip`: the same for any sequence of items; the words of a Request message are read back, and index, offset and
  data of a Piece message are those of the block that is added.
-/
import SimpleTorrent.Model.Peer
import SimpleTorrent.Properties.Delivery

namespace SimpleTorrent

open MessageUtil

/-! ## Items of a stream -/

/-- what a peer writes between two reads of a header -/
inductive Item where
  | keepAlive
  | message (type : UInt8) (payload : Bytes)
deriving DecidableEq, Repr

namespace Item

def bytes : Item → Bytes
  | keepAlive => [0, 0, 0, 0]
  | message type payload => constructMessage type payload

/-- what is handed to `handle_message` -/
def handled : Item → Option (UInt8 × Bytes)
  | keepAlive => none
  | message type payload => some (type, payload)

/-- the length of a message is a 32-bit number -/
def Fits : Item → Prop
  | keepAlive => True
  | message _ payload => payload.length ≤ 2 ^ 32 - 2

end Item

namespace Receiver

/-- the loop reads from a stream until that holds less than the next read asks for; no handler throws -/
def receive : ℕ → Receiver → Bytes → Receiver × Bytes
  | 0, s, stream => (s, stream)
  | reads + 1, s, stream =>
    if s.state = .exited ∨ stream.length < s.wanted then (s, stream)
    else receive reads (s.step ⟨stream.take s.wanted, false, 0, false⟩) (stream.drop s.wanted)

/-- where the loop is suspended, and what it has handled; no read has failed -/
structure Awaits (s : Receiver) (state : ReceiveState) (handled : List (UInt8 × Bytes)) : Prop where
  state_eq : s.state = state
  header : s.header.length = 4
  continueConnection : s.continueConnection = true
  failed : s.failed = false
  handled_eq : s.handled = handled

variable {s : Receiver} {handled : List (UInt8 × Bytes)} {data : Bytes} {len : ℕ} {messageType : UInt8}

theorem init_awaits : (init true).Awaits .header [] := ⟨rfl, rfl, rfl, rfl, rfl⟩

theorem Awaits.test (hh : s.header.length = 4) (hc : s.continueConnection = true) (hf : s.failed = false)
    (hd : s.handled = handled) : s.test.Awaits .header handled := by
  rw [Receiver.test, if_pos hc]
  exact ⟨rfl, hh, hc, hf, hd⟩

/-- a read that gets exactly what it asks for -/
theorem receive_succ (hs : s.state ≠ .exited) (hdata : data.length = s.wanted) (n : ℕ) (rest : Bytes) :
    receive (n + 1) s (data ++ rest) = receive n (s.step ⟨data, false, 0, false⟩) rest := by
  have hle : ¬ (s.state = .exited ∨ (data ++ rest).length < s.wanted) := by
    rw [List.length_append]
    simp only [hs, false_or]
    omega
  rw [receive, if_neg hle, List.take_left' hdata, List.drop_left' hdata]

/-- nothing is left to read -/
theorem Awaits.receive_nil (h : s.Awaits .header handled) (n : ℕ) : receive n s [] = (s, []) := by
  cases n with
  | zero => rfl
  | succ n =>
    rw [receive, if_pos (Or.inr ?_)]
    simp only [wanted, h.state_eq, List.length_nil]
    omega

/-! ## One item -/

theorem fill_eq {buffer : Bytes} (h : data.length = buffer.length) : fill buffer ⟨data, false, 0, false⟩ = data := by
  rw [fill_of_le h.ge]
  exact List.take_of_length_le h.le

theorem Awaits.keepAlive (h : s.Awaits .header handled) :
    (s.step ⟨[0, 0, 0, 0], false, 0, false⟩).Awaits .header handled := by
  have hfill : fill s.header ⟨[0, 0, 0, 0], false, 0, false⟩ = [0, 0, 0, 0] := fill_eq h.header.symm
  have hzero : getHeaderLength [0, 0, 0, 0] = 0 := by decide
  rw [step, h.state_eq]
  simp only [hfill, hzero, if_true]
  exact Awaits.test rfl (by simp [read, h.continueConnection]) (by simp [read, h.failed]) h.handled_eq

theorem Awaits.length (h : s.Awaits .header handled) (hlen : len < 2 ^ 32) (hpos : len ≠ 0) :
    (s.step ⟨writeUint32 len, false, 0, false⟩).Awaits (.type len) handled := by
  have hfill : fill s.header ⟨writeUint32 len, false, 0, false⟩ = writeUint32 len := fill_eq h.header.symm
  have hread : getHeaderLength (writeUint32 len) = len := by
    have hread := readUint32_writeUint32 hlen []
    rwa [List.append_nil] at hread
  rw [step, h.state_eq]
  simp only [hfill, hread, if_neg hpos]
  exact ⟨rfl, rfl, by simp [read, h.continueConnection], by simp [read, h.failed], h.handled_eq⟩

theorem Awaits.type (h : s.Awaits (.type len) handled) (type : UInt8) :
    (s.step ⟨[type], false, 0, false⟩).Awaits (.payload len type) handled := by
  have hfill : fill [(0 : UInt8)] ⟨[type], false, 0, false⟩ = [type] := fill_eq rfl
  rw [step, h.state_eq]
  simp only [hfill, List.headD_cons]
  exact ⟨rfl, h.header, by simp [read, h.continueConnection], by simp [read, h.failed], h.handled_eq⟩

theorem Awaits.payload (h : s.Awaits (.payload len messageType) handled) {payload : Bytes}
    (hlen : payload.length = len - 1) :
    (s.step ⟨payload, false, 0, false⟩).Awaits .header (handled ++ [(messageType, payload)]) := by
  have hfill : fill (List.replicate (len - 1) 0) ⟨payload, false, 0, false⟩ = payload := fill_eq (by simpa using hlen)
  rw [step, h.state_eq]
  simp only [hfill, Bool.false_eq_true, if_false]
  refine Awaits.test h.header (by simp [read, h.continueConnection]) ?_ (by simp only [h.handled_eq])
  simp [read, h.failed, hlen]

/-- **One item** is consumed whole. -/
theorem receive_item (h : s.Awaits .header handled) {item : Item} (hfit : item.Fits) (rest : Bytes) :
    ∃ (k : ℕ) (t : Receiver), t.Awaits .header (handled ++ item.handled.toList) ∧
      ∀ n, receive (n + k) s (item.bytes ++ rest) = receive n t rest := by
  cases item with
  | keepAlive =>
    refine ⟨1, _, ?_, fun n => receive_succ (by simp [h.state_eq]) (by rw [wanted, h.state_eq]; rfl) n rest⟩
    rw [Item.handled, Option.toList_none, List.append_nil]
    exact h.keepAlive
  | message type payload =>
    rw [Item.Fits] at hfit
    have hlen : payload.length + 1 < 2 ^ 32 := by omega
    have hparts : constructMessage type payload ++ rest =
        writeUint32 (payload.length + 1) ++ ([type] ++ (payload ++ rest)) := by
      rw [constructMessage, Nat.mod_eq_of_lt hlen]
      simp
    have h₁ := h.length hlen (Nat.succ_ne_zero _)
    have h₂ := h₁.type type
    refine ⟨3, _, h₂.payload rfl, ?_⟩
    intro n
    calc receive (n + 3) s (constructMessage type payload ++ rest)
        = receive (n + 2) _ ([type] ++ (payload ++ rest)) := by
          rw [hparts]
          exact receive_succ (by simp [h.state_eq]) (by simp [wanted, h.state_eq]) _ _
      _ = receive (n + 1) _ (payload ++ rest) :=
          receive_succ (by simp [h₁.state_eq]) (by simp [wanted, h₁.state_eq]) _ _
      _ = receive n _ rest := receive_succ (by simp [h₂.state_eq]) (by simp [wanted, h₂.state_eq]) _ _

/-! ## Streams -/

/-- **A stream of items**, consumed one after the other -/
theorem receive_items (h : s.Awaits .header handled) {items : List Item} (hfit : ∀ item ∈ items, item.Fits) :
    ∃ (k : ℕ) (t : Receiver), t.Awaits .header (handled ++ items.filterMap Item.handled) ∧
      ∀ n, receive (n + k) s (items.flatMap Item.bytes) = (t, []) := by
  induction items generalizing s handled with
  | nil => exact ⟨0, s, by simpa using h, fun n => h.receive_nil n⟩
  | cons item items ih =>
    obtain ⟨k, t, ht, hk⟩ := receive_item h (hfit item List.mem_cons_self) (items.flatMap Item.bytes)
    obtain ⟨m, u, hu, hm⟩ := ih ht fun item' hitem' => hfit item' (List.mem_cons_of_mem item hitem')
    refine ⟨m + k, u, ?_, fun n => ?_⟩
    · have hall : handled ++ (item :: items).filterMap Item.handled =
          handled ++ item.handled.toList ++ items.filterMap Item.handled := by
        rw [List.filterMap_cons]
        cases item.handled <;> simp
      rw [hall]
      exact hu
    · rw [List.flatMap_cons, ← Nat.add_assoc, hk, hm]

end Receiver

/-! ## Words -/

/-- the fields of a request are 32-bit numbers -/
def BlockRequest.Fits (request : BlockRequest) : Prop :=
  request.pieceIndex < 2 ^ 32 ∧ request.blockOffset < 2 ^ 32 ∧ request.blockLength < 2 ^ 32

/-- the payload of a Request message -/
def requestPayload (request : BlockRequest) : Bytes :=
  writeUint32 request.pieceIndex ++ writeUint32 request.blockOffset ++ writeUint32 request.blockLength

theorem requestPayload_words {request : BlockRequest} (h : request.Fits) :
    readUint32 (requestPayload request) 0 = request.pieceIndex ∧
      readUint32 (requestPayload request) 4 = request.blockOffset ∧
      readUint32 (requestPayload request) 8 = request.blockLength := by
  obtain ⟨hindex, hoffset, hlength⟩ := h
  refine ⟨?_, ?_, ?_⟩
  · rw [requestPayload, List.append_assoc]
    exact readUint32_writeUint32 hindex _
  · rw [requestPayload, List.append_assoc]
    exact readUint32_behind hoffset (writeUint32 _) _
  · rw [requestPayload, ← List.append_nil (writeUint32 request.blockLength)]
    exact readUint32_behind hlength (writeUint32 _ ++ writeUint32 _) []

/-- the block of a Piece payload -/
theorem pieceBlock_words {pieceIndex blockOffset : ℕ} (hindex : pieceIndex < 2 ^ 32) (hoffset : blockOffset < 2 ^ 32)
    {data : Bytes} (hdata : data ≠ []) :
    pieceBlock (writeUint32 pieceIndex ++ writeUint32 blockOffset ++ data) = some ⟨pieceIndex, blockOffset, data⟩ := by
  have hpos := List.length_pos_iff.2 hdata
  have hlong : ¬ (writeUint32 pieceIndex ++ writeUint32 blockOffset ++ data).length < 9 := by
    simp only [List.length_append, length_writeUint32]
    omega
  have hfirst : readUint32 (writeUint32 pieceIndex ++ writeUint32 blockOffset ++ data) 0 = pieceIndex := by
    rw [List.append_assoc]
    exact readUint32_writeUint32 hindex _
  have hsecond : readUint32 (writeUint32 pieceIndex ++ writeUint32 blockOffset ++ data) 4 = blockOffset := by
    rw [List.append_assoc]
    exact readUint32_behind hoffset (writeUint32 _) data
  simp only [pieceBlock, if_neg hlong, retrievePieceIndexAndBlockOffset, hfirst, hsecond]
  rfl

/-- the block of a payload is the one that is added -/
theorem Peer.handlePieceMessage_block (sha1 : Bytes → Bytes) (s : Peer) {payload : Bytes} {block : Block}
    (h : pieceBlock payload = some block) :
    (∀ m, s.pieceManager.addBlock sha1 s.peerNumId block = .ok m →
      (s.handlePieceMessage sha1 payload).pieceManager = m) ∧
    ∀ f, s.pieceManager.addBlock sha1 s.peerNumId block = .error f → s.handlePieceMessage sha1 payload = s.finish := by
  simp only [handlePieceMessage, h]
  constructor
  · intro m hm
    rw [hm]
  · intro f hf
    rw [hf]

/-- **Round trip.** The receive loop consumes the concatenation of any keep-alives and messages exactly, and hands the
messages over in order, with their types and payloads; the words of a Request message are those of the request; and
`handle_piece_message` recovers index, offset and data of a Piece message, and calls `add_block` with them. -/
theorem round_trip (items : List Item) (hfit : ∀ item ∈ items, item.Fits) (request : BlockRequest)
    (hrequest : request.Fits) (pieceIndex blockOffset : ℕ) (hindex : pieceIndex < 2 ^ 32)
    (hoffset : blockOffset < 2 ^ 32) (data : Bytes) (hdata : data ≠ []) :
    (∃ (k : ℕ) (t : Receiver), t.Awaits .header (items.filterMap Item.handled) ∧
      ∀ reads ≥ k, Receiver.receive reads (Receiver.init true) (items.flatMap Item.bytes) = (t, [])) ∧
    constructRequestMessage request = constructMessage 6 (requestPayload request) ∧
    (readUint32 (requestPayload request) 0 = request.pieceIndex ∧
      readUint32 (requestPayload request) 4 = request.blockOffset ∧
      readUint32 (requestPayload request) 8 = request.blockLength) ∧
    pieceBlock (writeUint32 pieceIndex ++ writeUint32 blockOffset ++ data) = some ⟨pieceIndex, blockOffset, data⟩ ∧
    ∀ (sha1 : Bytes → Bytes) (s : Peer),
      (∀ m, s.pieceManager.addBlock sha1 s.peerNumId ⟨pieceIndex, blockOffset, data⟩ = .ok m →
        (s.handlePieceMessage sha1 (writeUint32 pieceIndex ++ writeUint32 blockOffset ++ data)).pieceManager = m) ∧
      ∀ f, s.pieceManager.addBlock sha1 s.peerNumId ⟨pieceIndex, blockOffset, data⟩ = .error f →
        s.handlePieceMessage sha1 (writeUint32 pieceIndex ++ writeUint32 blockOffset ++ data) = s.finish := by
  obtain ⟨k, t, ht, hk⟩ := Receiver.receive_items Receiver.init_awaits hfit
  have hblock := pieceBlock_words hindex hoffset hdata
  refine ⟨⟨k, t, ht, ?_⟩, rfl, requestPayload_words hrequest, hblock, fun sha1 s =>
    s.handlePieceMessage_block sha1 hblock⟩
  intro reads hreads
  obtain ⟨n, rfl⟩ := Nat.exists_eq_add_of_le' hreads
  exact hk n

theorem round_trip_interested : (∃ (k : ℕ) (t : Receiver), t.Awaits .header [(2, [])] ∧
      ∀ reads ≥ k, Receiver.receive reads (Receiver.init true) [0, 0, 0, 0, 0, 0, 0, 1, 2] = (t, [])) ∧
    pieceBlock [0, 0, 0, 1, 0, 0, 64, 0, 7] = some ⟨1, 2 ^ 14, [7]⟩ := by
  obtain ⟨h, -, -, hpiece, -⟩ := round_trip [.keepAlive, .message 2 []] (by simp [Item.Fits]) ⟨1, 2 ^ 14, 2 ^ 14⟩
    ⟨by decide, by decide, by decide⟩ 1 (2 ^ 14) (by decide) (by decide) [7] (by decide)
  exact ⟨h, hpiece⟩

end SimpleTorrent
