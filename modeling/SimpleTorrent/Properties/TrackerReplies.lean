/-
Replies of trackers, of any length.

The header of a reply is read without a look at how much was received, and the number of records of an announce reply is
computed by a subtraction that wraps. The loop over the compact string of an HTTP tracker goes on for as long as it is
inside the string, even if the record it is at does not fit.

- `recordReads`, `connectReads`, `announceReads`, `compactReads`: what is read, as offsets and sizes.
- `addRecords_ok`, `addRecords_error`: records that fit go into the set, those that do not are a fault.
- `udp_replies_iff`: the replies that UDP trackers may send.
- `http_compact_iff`: the strings that HTTP trackers may send.
-/
import SimpleTorrent.Model.UdpTracker
import SimpleTorrent.Properties.TrackerPeers

namespace SimpleTorrent

open Checked Decimal Splice MessageUtil

namespace Tracker

/-! ## Records -/

/-- the reads of `count` records from `off` on -/
def recordReads (count off : ℕ) : List (ℕ × ℕ) :=
  (List.range count).flatMap fun i => [(off + 6 * i, 4), (off + 6 * i + 4, 2)]

/-- the reads stay within `n` bytes -/
def ReadsWithin (reads : List (ℕ × ℕ)) (n : ℕ) : Prop := ∀ r ∈ reads, r.1 + r.2 ≤ n

theorem readsWithin_append {a b : List (ℕ × ℕ)} {n : ℕ} :
    ReadsWithin (a ++ b) n ↔ ReadsWithin a n ∧ ReadsWithin b n := by
  simp only [ReadsWithin, List.mem_append, or_imp, forall_and]

theorem readsWithin_records {count off n : ℕ} :
    ReadsWithin (recordReads count off) n ↔ count = 0 ∨ off + 6 * count ≤ n := by
  simp only [ReadsWithin, recordReads, List.mem_flatMap, List.mem_range, List.mem_cons, List.not_mem_nil, or_false]
  constructor
  · intro h
    rcases Nat.eq_zero_or_pos count with h0 | hpos
    · exact Or.inl h0
    · have hlast := h (off + 6 * (count - 1) + 4, 2) ⟨count - 1, by omega, Or.inr rfl⟩
      exact Or.inr (by simp only at hlast; omega)
  · rintro h r ⟨i, hi, rfl | rfl⟩
    · simp only
      omega
    · simp only
      omega

/-- the reads of action and transaction id -/
theorem readsWithin_header {n : ℕ} : ReadsWithin [(0, 4), (4, 4)] n ↔ 8 ≤ n := by
  simp only [ReadsWithin, List.forall_mem_cons, List.not_mem_nil, false_imp_iff, implies_true, and_true]
  omega

section Address

variable (addressToString : Bytes → Bytes)

/-- the string of the record at `off` -/
def address (bytes : Bytes) (off : ℕ) : Bytes :=
  connString (addressToString ((bytes.drop off).take 4)) (readUint16 bytes (off + 4))

/-- the set of `t` is that of `s` and the addresses of `count` records from `off` on -/
def Adds (s t : Tracker) (bytes : Bytes) (count off : ℕ) : Prop :=
  ∀ c, c ∈ t.peerSet ↔ c ∈ s.peerSet ∨ ∃ i < count, c = address addressToString bytes (off + 6 * i)

variable {addressToString} {s t : Tracker} {buffer : Bytes}

theorem mem_insertPeer (ip : Bytes) (port : ℤ) (c : Bytes) :
    c ∈ (s.insertPeer ip port).peerSet ↔ c ∈ s.peerSet ∨ c = connString ip port := by
  rw [insertPeer]
  by_cases h : connString ip port ∈ s.peerSet
  · simp only [if_pos h, iff_self_or]
    intro hc
    rw [hc]
    exact h
  · simp only [if_neg h, List.mem_append, List.mem_singleton]

variable (addressToString s) in
/-- records that fit are added -/
theorem addRecords_ok {count off : ℕ} (h : count = 0 ∨ off + 6 * count ≤ buffer.length) :
    ∃ t, s.addRecords addressToString buffer count off = .ok t ∧ Adds addressToString s t buffer count off := by
  induction count generalizing s off with
  | zero => exact ⟨s, rfl, by simp [Adds]⟩
  | succ count ih =>
    rw [addRecords, if_pos (by omega)]
    obtain ⟨t, ht, hadds⟩ := @ih (s.insertPeer (addressToString ((buffer.drop off).take 4))
      (readUint16 buffer (off + 4))) (off + 6) (by omega)
    refine ⟨t, ht, fun c => ?_⟩
    rw [hadds, mem_insertPeer, or_assoc]
    refine or_congr_right ?_
    constructor
    · rintro (hc | ⟨i, hi, hc⟩)
      · exact ⟨0, Nat.succ_pos count, hc⟩
      · exact ⟨i + 1, Nat.succ_lt_succ hi, by rw [hc]; congr 1; omega⟩
    · rintro ⟨i, hi, hc⟩
      cases i with
      | zero => exact Or.inl hc
      | succ i => exact Or.inr ⟨i, Nat.lt_of_succ_lt_succ hi, by rw [hc]; congr 1; omega⟩

/-- records that do not fit are a fault -/
theorem addRecords_error {count off : ℕ} (hpos : count ≠ 0) (h : buffer.length < off + 6 * count) :
    s.addRecords addressToString buffer count off = .error .badCopy := by
  induction count generalizing s off with
  | zero => exact absurd rfl hpos
  | succ count ih =>
    rw [addRecords]
    split_ifs with hfit
    · exact ih (by omega) (by omega)
    · rfl

/-! ## Bytes in a larger buffer -/

theorem take_drop_append (a b : Bytes) {off n : ℕ} (h : off + n ≤ a.length) :
    ((a ++ b).drop off).take n = (a.drop off).take n := by
  rw [List.drop_append_of_le_length (by omega), List.take_append_of_le_length (by rw [List.length_drop]; omega)]

theorem readUint32_append_left (a b : Bytes) {off : ℕ} (h : off + 4 ≤ a.length) :
    readUint32 (a ++ b) off = readUint32 a off := by
  rw [readUint32, take_drop_append a b h, readUint32]

variable (addressToString) in
theorem address_append_left (a b : Bytes) {off : ℕ} (h : off + 6 ≤ a.length) :
    address addressToString (a ++ b) off = address addressToString a off := by
  rw [address, readUint16, take_drop_append a b (by omega), take_drop_append a b (by omega), address, readUint16]

/-- a prefix of a buffer that holds all records is enough -/
theorem Adds.of_append {a b : Bytes} {count off : ℕ} (hfit : count = 0 ∨ off + 6 * count ≤ a.length) :
    Adds addressToString s t (a ++ b) count off ↔ Adds addressToString s t a count off := by
  have hsame : ∀ i < count, address addressToString (a ++ b) (off + 6 * i) = address addressToString a (off + 6 * i) :=
    fun i hi => address_append_left addressToString a b (by omega)
  rw [Adds, Adds]
  refine forall_congr' fun c => ?_
  have hex : (∃ i < count, c = address addressToString (a ++ b) (off + 6 * i)) ↔
      ∃ i < count, c = address addressToString a (off + 6 * i) :=
    exists_congr fun i => and_congr_right fun hi => by rw [hsame i hi]
  rw [hex]

end Address

/-! ## Replies of UDP trackers -/

/-- action and transaction id are the expected ones -/
def Header (action transactionId : ℕ) (bytes : Bytes) : Prop :=
  readUint32 bytes 0 = action ∧ readUint32 bytes 4 = transactionId

instance (action transactionId : ℕ) (bytes : Bytes) : Decidable (Header action transactionId bytes) := by
  unfold Header; infer_instance

theorem header_append {action transactionId : ℕ} {a : Bytes} (h : 8 ≤ a.length) (b : Bytes) :
    Header action transactionId (a ++ b) ↔ Header action transactionId a := by
  rw [Header, Header, readUint32_append_left a b (by omega), readUint32_append_left a b (by omega)]

/-- what is read of a connect reply -/
def connectReads (transactionId : ℕ) (uninitialised datagram : Bytes) : List (ℕ × ℕ) :=
  [(0, 4), (4, 4)] ++
    if Header UdpTracker.connectAction transactionId (splice uninitialised 0 (datagram.take 16)) then [(8, 8)] else []

/-- a connect reply is handled within what was received -/
structure ConnectHandled (transactionId : ℕ) (uninitialised datagram : Bytes) : Prop where
  within : ReadsWithin (connectReads transactionId uninitialised datagram) (datagram.take 16).length
  accepted : ∀ connectionId, UdpTracker.handleConnectResponse transactionId uninitialised datagram = some connectionId →
    16 ≤ (datagram.take 16).length ∧ Header UdpTracker.connectAction transactionId (datagram.take 16)

theorem handleConnectResponse_eq (transactionId : ℕ) (uninitialised datagram : Bytes) :
    UdpTracker.handleConnectResponse transactionId uninitialised datagram =
      if Header UdpTracker.connectAction transactionId (splice uninitialised 0 (datagram.take 16)) then
        some (UdpTracker.readUint64 (splice uninitialised 0 (datagram.take 16)) 8)
      else none := by
  simp only [UdpTracker.handleConnectResponse, Header, ne_eq, ← not_and_or, ite_not]

theorem connect_iff (transactionId : ℕ) (uninitialised datagram : Bytes) :
    ConnectHandled transactionId uninitialised datagram ↔
      16 ≤ (datagram.take 16).length ∨
        8 ≤ (datagram.take 16).length ∧ ¬ Header UdpTracker.connectAction transactionId (datagram.take 16) := by
  have hbuffer : 8 ≤ (datagram.take 16).length →
      (Header UdpTracker.connectAction transactionId (splice uninitialised 0 (datagram.take 16)) ↔
        Header UdpTracker.connectAction transactionId (datagram.take 16)) := by
    intro h
    rw [splice, List.take_zero, List.nil_append]
    exact header_append h _
  constructor
  · intro h
    have hwithin := readsWithin_append.1 h.within
    have height := readsWithin_header.1 hwithin.1
    by_cases hheader : Header UdpTracker.connectAction transactionId (datagram.take 16)
    · refine Or.inl ?_
      have hlast := hwithin.2
      rw [if_pos ((hbuffer height).2 hheader)] at hlast
      exact hlast (8, 8) List.mem_cons_self
    · exact Or.inr ⟨height, hheader⟩
  · intro h
    have height : 8 ≤ (datagram.take 16).length := h.elim (fun h => by omega) fun h => h.1
    refine ⟨readsWithin_append.2 ⟨readsWithin_header.2 height, ?_⟩, fun connectionId hid => ?_⟩
    · split_ifs with hheader
      · have hlong : 16 ≤ (datagram.take 16).length :=
          h.resolve_right fun hno => hno.2 ((hbuffer height).1 hheader)
        intro r hr
        rw [List.mem_singleton.1 hr]
        exact hlong
      · intro r hr
        cases hr
    · rw [handleConnectResponse_eq] at hid
      split_ifs at hid with hheader
      have hin := (hbuffer height).1 hheader
      exact ⟨h.resolve_right fun hno => hno.2 hin, hin⟩

/-- the bytes of an announce reply that fit into the buffer -/
def received (reply : UdpReply) : Bytes := reply.datagram.take 2048

/-- the buffer of an announce reply -/
def announceBuffer (reply : UdpReply) : Bytes := resize (received reply) 2048 0

/-- the number of records that is computed from the number of bytes received -/
def numPeers (bytesReceived : ℕ) : ℕ := (bytesReceived + 2 ^ 64 - 20) % 2 ^ 64 / 6

/-- what is read of an announce reply -/
def announceReads (reply : UdpReply) : List (ℕ × ℕ) :=
  [(0, 4), (4, 4)] ++
    if Header announceAction reply.transactionId (announceBuffer reply) then
      recordReads (numPeers (received reply).length) 20
    else []

theorem length_received (reply : UdpReply) : (received reply).length ≤ 2048 := List.length_take_le _ _

theorem announceBuffer_eq (reply : UdpReply) :
    announceBuffer reply = received reply ++ List.replicate (2048 - (received reply).length) 0 := by
  rw [announceBuffer, resize, List.take_of_length_le (length_received reply)]

theorem numPeers_of_le {n : ℕ} (h : 20 ≤ n) (hn : n ≤ 2048) : numPeers n = (n - 20) / 6 := by
  rw [numPeers]
  omega

section Announce

variable {addressToString : Bytes → Bytes} {s t : Tracker} {reply : UdpReply}

theorem handleAnnounceResponse_eq : s.handleAnnounceResponse addressToString reply =
    if Header announceAction reply.transactionId (announceBuffer reply) then
      (s.addRecords addressToString (announceBuffer reply) (numPeers (received reply).length) 20).map some
    else .ok none := by
  simp only [handleAnnounceResponse, ← received.eq_1, ← announceBuffer.eq_1, ← numPeers.eq_1, ne_eq, ← not_and_or,
    ← Header.eq_1, ite_not]
  split_ifs
  · cases s.addRecords addressToString (announceBuffer reply) (numPeers (received reply).length) 20 with
    | ok t => rfl
    | error e => rfl
  · rfl

theorem header_announceBuffer (h : 8 ≤ (received reply).length) :
    Header announceAction reply.transactionId (announceBuffer reply) ↔
      Header announceAction reply.transactionId (received reply) := by
  rw [announceBuffer_eq]
  exact header_append h _

variable (addressToString s) in
/-- a reply of at least 20 bytes with the expected header is accepted -/
theorem handleAnnounceResponse_ok (hlen : 20 ≤ (received reply).length)
    (h : Header announceAction reply.transactionId (received reply)) :
    ∃ t, s.handleAnnounceResponse addressToString reply = .ok (some t) ∧
      Adds addressToString s t (received reply) (((received reply).length - 20) / 6) 20 := by
  have hle := length_received reply
  have hfit : 20 + 6 * (((received reply).length - 20) / 6) ≤ (received reply).length := by omega
  have hbuffer : 20 + 6 * (((received reply).length - 20) / 6) ≤ (announceBuffer reply).length := by
    rw [announceBuffer, length_resize]
    omega
  obtain ⟨t, ht, hadds⟩ := addRecords_ok addressToString s (Or.inr hbuffer)
  rw [announceBuffer_eq, Adds.of_append (Or.inr hfit)] at hadds
  refine ⟨t, ?_, hadds⟩
  rw [handleAnnounceResponse_eq, if_pos ((header_announceBuffer (by omega)).2 h), numPeers_of_le hlen hle, ht]
  rfl

/-- in a shorter one with the expected header the number of records wraps -/
theorem handleAnnounceResponse_error (hlen : (received reply).length < 20)
    (h : Header announceAction reply.transactionId (announceBuffer reply)) :
    s.handleAnnounceResponse addressToString reply = .error .badCopy := by
  have hmany : 2048 < 20 + 6 * numPeers (received reply).length := by
    rw [numPeers]
    omega
  rw [handleAnnounceResponse_eq, if_pos h, addRecords_error (by omega) (by rwa [announceBuffer, length_resize])]
  rfl

variable (addressToString s reply)

/-- an announce reply is handled within what was received; if it is accepted, its records are added -/
structure AnnounceHandled : Prop where
  within : ReadsWithin (announceReads reply) (received reply).length
  result : ∃ result, s.handleAnnounceResponse addressToString reply = .ok result
  accepted : ∀ t, s.handleAnnounceResponse addressToString reply = .ok (some t) →
    20 ≤ (received reply).length ∧ Header announceAction reply.transactionId (received reply) ∧
      Adds addressToString s t (received reply) (((received reply).length - 20) / 6) 20

theorem announce_iff : AnnounceHandled addressToString s reply ↔
    20 ≤ (received reply).length ∨
      8 ≤ (received reply).length ∧ ¬ Header announceAction reply.transactionId (received reply) := by
  have hle := length_received reply
  constructor
  · intro h
    have height := readsWithin_header.1 (readsWithin_append.1 h.within).1
    by_contra hno
    rw [not_or, not_and_not_right, not_le] at hno
    have hheader := (header_announceBuffer height).2 (hno.2 height)
    obtain ⟨result, hresult⟩ := h.result
    rw [handleAnnounceResponse_error hno.1 hheader] at hresult
    cases hresult
  · intro h
    have height : 8 ≤ (received reply).length := h.elim (fun h => by omega) fun h => h.1
    have hbuffer := header_announceBuffer height
    have hfirst := readsWithin_header.2 height
    by_cases hheader : Header announceAction reply.transactionId (received reply)
    · have hlen : 20 ≤ (received reply).length := h.resolve_right fun hno => hno.2 hheader
      obtain ⟨t, ht, hadds⟩ := handleAnnounceResponse_ok addressToString s hlen hheader
      refine ⟨readsWithin_append.2 ⟨hfirst, ?_⟩, ⟨_, ht⟩, fun u hu => ?_⟩
      · rw [if_pos (hbuffer.2 hheader), numPeers_of_le hlen hle]
        exact readsWithin_records.2 (Or.inr (by omega))
      · rw [ht, Except.ok.injEq, Option.some.injEq] at hu
        exact ⟨hlen, hheader, hu ▸ hadds⟩
    · have hno : s.handleAnnounceResponse addressToString reply = .ok none := by
        rw [handleAnnounceResponse_eq, if_neg (mt hbuffer.1 hheader)]
      refine ⟨readsWithin_append.2 ⟨hfirst, ?_⟩, ⟨_, hno⟩, fun u hu => ?_⟩
      · rw [if_neg (mt hbuffer.1 hheader)]
        intro r hr
        cases hr
      · rw [hno] at hu
        cases hu

end Announce

/-- **Which replies of UDP trackers are handled within their bytes.** A connect reply exactly if it has 16 bytes, an
announce reply exactly if it has at least 20; or if it is refused for its first eight bytes. -/
theorem udp_replies_iff (addressToString : Bytes → Bytes) (s : Tracker) (transactionId : ℕ)
    (uninitialised datagram : Bytes) (reply : UdpReply) :
    (ConnectHandled transactionId uninitialised datagram ↔
      16 ≤ (datagram.take 16).length ∨
        8 ≤ (datagram.take 16).length ∧ ¬ Header UdpTracker.connectAction transactionId (datagram.take 16)) ∧
    (AnnounceHandled addressToString s reply ↔
      20 ≤ (received reply).length ∨
        8 ≤ (received reply).length ∧ ¬ Header announceAction reply.transactionId (received reply)) :=
  ⟨connect_iff transactionId uninitialised datagram, announce_iff addressToString s reply⟩

/-- eight bytes that announce eight more, and eight bytes that announce none at all -/
theorem short_replies :
    ¬ ConnectHandled 7 (List.replicate 16 0xAA) [0, 0, 0, 0, 0, 0, 0, 7] ∧
    UdpTracker.handleConnectResponse 7 (List.replicate 16 0xAA) [0, 0, 0, 0, 0, 0, 0, 7] = some 0xAAAAAAAAAAAAAAAA ∧
    ¬ AnnounceHandled dotted new ⟨7, [0, 0, 0, 1, 0, 0, 0, 7]⟩ ∧
    new.handleAnnounceResponse dotted ⟨7, [0, 0, 0, 1, 0, 0, 0, 7]⟩ = .error .badCopy := by
  refine ⟨?_, by decide, ?_, ?_⟩
  · rw [connect_iff]
    decide
  · rw [announce_iff]
    decide
  · exact handleAnnounceResponse_error (by decide) ((header_announceBuffer (by decide)).2 (by decide))

/-! ## Compact strings of HTTP trackers -/

/-- what is read of a compact string -/
def compactReads (peersString : Bytes) : List (ℕ × ℕ) := recordReads ((peersString.length + 5) / 6) 0

/-- how many records of a string a UDP reply can carry -/
def carried (peersString : Bytes) : ℕ := min (peersString.length / 6) 338

section Compact

variable (addressToString : Bytes → Bytes) (s : Tracker) (response : List (Bytes × Bencode)) (peersString : Bytes)
  (reply : UdpReply)

/-- a compact string is decoded within its bytes, into its complete groups, and as in a UDP reply -/
structure CompactHandled : Prop where
  within : ReadsWithin (compactReads peersString) peersString.length
  adds : ∃ t, s.parseTrackerResponse addressToString (.dict response) = .ok (none, t) ∧
    Adds addressToString s t peersString (peersString.length / 6) 0
  agrees : ∃ t u, s.parseTrackerResponse addressToString (.dict response) = .ok (none, t) ∧
    s.handleAnnounceResponse addressToString reply = .ok (some u) ∧ ∀ c, c ∈ t.peerSet ↔ c ∈ u.peerSet

/-- the groups that do not fit into a UDP reply add nothing -/
def ExcessKnown : Prop := ∀ i, 338 ≤ i → i < peersString.length / 6 →
  address addressToString peersString (6 * i) ∈ s.peerSet ∨
    ∃ j < 338, address addressToString peersString (6 * i) = address addressToString peersString (6 * j)

variable {addressToString s response peersString reply}

variable (addressToString s) in
/-- the complete groups of a string of whole groups -/
theorem parseTrackerResponse_ok (hpeers : response.lookup peersKey = some (.string peersString))
    (hdvd : 6 ∣ peersString.length) :
    ∃ t, s.parseTrackerResponse addressToString (.dict response) = .ok (none, t) ∧
      Adds addressToString s t peersString (peersString.length / 6) 0 := by
  obtain ⟨q, hq⟩ := hdvd
  have hcount : (peersString.length + 5) / 6 = peersString.length / 6 := by omega
  have hfit : peersString.length / 6 = 0 ∨ 0 + 6 * (peersString.length / 6) ≤ peersString.length := by omega
  have hbuffer : peersString.length / 6 = 0 ∨ 0 + 6 * (peersString.length / 6) ≤ (peersString ++ [0]).length := by
    rw [List.length_append]
    omega
  obtain ⟨t, ht, hadds⟩ := addRecords_ok addressToString s hbuffer
  refine ⟨t, ?_, (Adds.of_append hfit).1 hadds⟩
  rw [parseTrackerResponse]
  simp only [Bencode.getDict, ok_bind, dictAt, hpeers, hcount, ht]
  rfl

variable (addressToString s reply) in
/-- a UDP reply with the same bytes behind its header -/
theorem handleAnnounceResponse_same {header : Bytes} (hlen : header.length = 20)
    (hheader : Header announceAction reply.transactionId header) (hreply : reply.datagram = header ++ peersString) :
    ∃ u, s.handleAnnounceResponse addressToString reply = .ok (some u) ∧
      Adds addressToString s u peersString (carried peersString) 0 := by
  have hrec : received reply = header ++ peersString.take 2028 := by
    rw [received, hreply, List.take_append, List.take_of_length_le (by omega), hlen]
  have hcarried : ((received reply).length - 20) / 6 = carried peersString := by
    rw [hrec, List.length_append, List.length_take, hlen, carried]
    omega
  obtain ⟨u, hu, hadds⟩ := handleAnnounceResponse_ok addressToString s
    (by rw [hrec, List.length_append]; omega) (by rw [hrec]; exact (header_append (by omega) _).2 hheader)
  refine ⟨u, hu, fun c => ?_⟩
  rw [hadds, hcarried]
  refine or_congr_right (exists_congr fun i => and_congr_right fun hi => ?_)
  -- a record that is carried lies within the first 2028 bytes of the string
  have hin : 6 * i + 6 ≤ (peersString.take 2028).length := by
    rw [carried] at hi
    rw [List.length_take]
    omega
  have hsame : address addressToString (received reply) (20 + 6 * i) =
      address addressToString peersString (0 + 6 * i) := by
    have hshift : ∀ n k, ((header ++ peersString.take 2028).drop (20 + n)).take k =
        ((peersString.take 2028).drop n).take k := by
      intro n k
      rw [← hlen, List.drop_length_add_append]
    have hwhole := address_append_left addressToString _ (peersString.drop 2028) hin
    rw [List.take_append_drop] at hwhole
    rw [Nat.zero_add, hwhole, hrec]
    simp only [address, readUint16, Nat.add_assoc, hshift]
  rw [hsame]

/-- no read past the end of the string -/
theorem CompactHandled.whole (h : CompactHandled addressToString s response peersString reply) :
    6 ∣ peersString.length := by
  have hwithin := readsWithin_records.1 h.within
  omega

variable {u : Tracker}

theorem CompactHandled.excessKnown (h : CompactHandled addressToString s response peersString reply)
    (hu : s.handleAnnounceResponse addressToString reply = .ok (some u))
    (haddsu : Adds addressToString s u peersString (carried peersString) 0) :
    ExcessKnown addressToString s peersString := by
  obtain ⟨t, ht, hadds⟩ := h.adds
  obtain ⟨t', u', ht', hu', hsame⟩ := h.agrees
  rw [ht, Except.ok.injEq, Prod.mk.injEq] at ht'
  rw [hu, Except.ok.injEq, Option.some.injEq] at hu'
  obtain ⟨-, rfl⟩ := ht'
  subst hu'
  intro i hi hlt
  have hin : address addressToString peersString (6 * i) ∈ u.peerSet := by
    rw [← hsame, hadds]
    exact Or.inr ⟨i, hlt, by rw [Nat.zero_add]⟩
  refine ((haddsu _).1 hin).imp_right ?_
  intro hex
  obtain ⟨j, hj, hc⟩ := hex
  rw [carried] at hj
  exact ⟨j, by omega, by rw [hc, Nat.zero_add]⟩

theorem compactHandled_of_whole (hpeers : response.lookup peersKey = some (.string peersString))
    (hdvd : 6 ∣ peersString.length) (hexcess : ExcessKnown addressToString s peersString)
    (hu : s.handleAnnounceResponse addressToString reply = .ok (some u))
    (haddsu : Adds addressToString s u peersString (carried peersString) 0) :
    CompactHandled addressToString s response peersString reply := by
  obtain ⟨t, ht, hadds⟩ := parseTrackerResponse_ok addressToString s hpeers hdvd
  refine ⟨readsWithin_records.2 (by omega), ⟨t, ht, hadds⟩, t, u, ht, hu, fun c => ?_⟩
  rw [hadds, haddsu]
  constructor
  · intro hc
    rcases hc with hc | hc
    · exact Or.inl hc
    · obtain ⟨i, hi, rfl⟩ := hc
      by_cases hcarried : i < 338
      · exact Or.inr ⟨i, by rw [carried]; omega, rfl⟩
      · rw [Nat.zero_add]
        rcases hexcess i (Nat.not_lt.1 hcarried) hi with hin | hrep
        · exact Or.inl hin
        · obtain ⟨j, hj, hsame⟩ := hrep
          exact Or.inr ⟨j, by rw [carried]; omega, by rw [hsame, Nat.zero_add]⟩
  · intro hc
    refine hc.imp_right ?_
    intro hex
    obtain ⟨i, hi, hci⟩ := hex
    rw [carried] at hi
    exact ⟨i, by omega, hci⟩

end Compact

/-- **Which compact strings are decoded as UDP replies are**: those of whole groups whose groups past the 338th, which no
UDP reply that is received can hold, repeat addresses. -/
theorem http_compact_iff (addressToString : Bytes → Bytes) (s : Tracker) (response : List (Bytes × Bencode))
    (peersString : Bytes) (hpeers : response.lookup peersKey = some (.string peersString)) (header : Bytes)
    (hlen : header.length = 20) (transactionId : ℕ) (hheader : Header announceAction transactionId header) :
    CompactHandled addressToString s response peersString ⟨transactionId, header ++ peersString⟩ ↔
      6 ∣ peersString.length ∧ ExcessKnown addressToString s peersString := by
  obtain ⟨u, hu, haddsu⟩ := handleAnnounceResponse_same addressToString s
    ⟨transactionId, header ++ peersString⟩ hlen hheader rfl
  constructor
  · intro h
    exact ⟨h.whole, h.excessKnown hu haddsu⟩
  · intro h
    exact compactHandled_of_whole hpeers h.1 h.2 hu haddsu

/-- the header of a reply for transaction 7 -/
def header7 : Bytes := [0, 0, 0, 1, 0, 0, 0, 7, 0, 0, 0, 0, 0, 0, 0, 0, 0, 0, 0, 0]

theorem http_compact_iff_one :
    CompactHandled dotted new [(peersKey, .string [1, 2, 3, 4, 0, 80])] [1, 2, 3, 4, 0, 80]
        ⟨7, header7 ++ [1, 2, 3, 4, 0, 80]⟩ ↔
      6 ∣ [1, 2, 3, 4, 0, 80].length ∧ ExcessKnown dotted new [1, 2, 3, 4, 0, 80] :=
  http_compact_iff dotted new [(peersKey, .string [1, 2, 3, 4, 0, 80])] [1, 2, 3, 4, 0, 80] rfl header7 rfl 7 (by decide)

/-- one byte short of a group: the byte after the string completes it; two bytes short: the read is past that, too -/
theorem incomplete_group :
    ¬ CompactHandled dotted new [(peersKey, .string [1, 2, 3, 4, 0])] [1, 2, 3, 4, 0] ⟨7, header7 ++ [1, 2, 3, 4, 0]⟩ ∧
    (∃ t, new.parseTrackerResponse dotted (.dict [(peersKey, .string [1, 2, 3, 4, 0])]) = .ok (none, t) ∧
      t.inserted = [(dotted [1, 2, 3, 4], 0)]) ∧
    new.parseTrackerResponse dotted (.dict [(peersKey, .string [1, 2, 3, 4])]) = .error .badCopy := by
  refine ⟨?_, ⟨_, rfl, rfl⟩, rfl⟩
  intro h
  exact absurd h.whole (by decide)

end Tracker

end SimpleTorrent
