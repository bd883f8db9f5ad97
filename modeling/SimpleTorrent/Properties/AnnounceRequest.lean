/-
The announce request of `UdpTracker`, against the layout of the protocol.

The copies lie end to end, but the field `key` is left out: `num_want` and the port are four bytes too early, and the
last four of the 98 bytes are never written.

- `Fields`: what a tracker decodes.
- `announceRequest_eq`: the datagram, byte by byte.
- `announce_front`: the fields in front of `key` are right.
- `announce_never_conforms`: no request conforms, whatever the ids and the hash.
- `shifted_fields`: what a tracker decodes of the others, whatever is in the unwritten bytes.
-/
import SimpleTorrent.Model.UdpTracker
import SimpleTorrent.Properties.RoundTrip

namespace SimpleTorrent.UdpTracker

open Checked Splice MessageUtil

/-! ## The layout -/

/-- the fields of an announce request, up to the address of the client -/
structure Prefix (bytes : Bytes) (connectionId transactionId : ℕ) (infoHash peerId : Bytes) : Prop where
  connectionId : readUint64 bytes 0 = connectionId
  action : readUint32 bytes 8 = 1
  transactionId : readUint32 bytes 12 = transactionId
  infoHash : (bytes.drop 16).take 20 = infoHash
  peerId : (bytes.drop 36).take 20 = peerId
  downloaded : readUint64 bytes 56 = 0
  left : readUint64 bytes 64 = 0
  uploaded : readUint64 bytes 72 = 0
  event : readUint32 bytes 80 = 0
  ip : readUint32 bytes 84 = 0

/-- the fields of an announce request; any value may be in `key`, at 88 -/
structure Fields (bytes : Bytes) (connectionId transactionId : ℕ) (infoHash peerId : Bytes) : Prop extends
    Prefix bytes connectionId transactionId infoHash peerId where
  numWant : readUint32 bytes 92 = maxPeersWanted
  port : Tracker.readUint16 bytes 96 = myPort

/-- all bytes of a datagram are written, and decode to these fields -/
def Conforms (request : Datagram) (connectionId transactionId : ℕ) (infoHash peerId : Bytes) : Prop :=
  ∃ bytes : Bytes, bytes.length = 98 ∧ request = bytes.map some ∧
    Fields bytes connectionId transactionId infoHash peerId

/-- bytes that agree with a datagram where that is written -/
def Sent (request : Datagram) (bytes : Bytes) : Prop :=
  bytes.length = request.length ∧ ∀ (i : ℕ) (b : UInt8), request[i]? = some (some b) → bytes[i]? = some b

/-! ## The copies -/

/-- copies that lie end to end, from an offset on -/
def Contiguous : ℕ → List (ℕ × Bytes) → Prop
  | _, [] => True
  | start, (off, src) :: copies => off = start ∧ Contiguous (start + src.length) copies

/-- a copy that continues what has been written -/
theorem memcpy_next (written src : Bytes) (n : ℕ) :
    memcpy (written.map some ++ List.replicate n none) written.length src =
      (written ++ src).map some ++ List.replicate (n - src.length) none := by
  have hlen : (written.map (some : UInt8 → Option UInt8)).length = written.length := List.length_map ..
  rw [memcpy, splice, List.take_left' hlen, ← hlen, List.drop_length_add_append, List.drop_replicate, List.length_map,
    List.map_append]

/-- contiguous copies write their bytes, one behind the other -/
theorem foldl_memcpy (written : Bytes) (n : ℕ) {copies : List (ℕ × Bytes)} (h : Contiguous written.length copies) :
    copies.foldl (fun data c => memcpy data c.1 c.2) (written.map some ++ List.replicate n none) =
      (written ++ copies.flatMap (·.2)).map some ++ List.replicate (n - (copies.flatMap (·.2)).length) none := by
  induction copies generalizing written n with
  | nil => simp
  | cons c copies ih =>
    obtain ⟨hoff, hrest⟩ := h
    have hnext : Contiguous (written ++ c.2).length copies := by rwa [List.length_append]
    rw [List.foldl_cons, hoff, memcpy_next, ih _ _ hnext]
    simp only [List.flatMap_cons, List.length_append, List.append_assoc, Nat.sub_sub]

/-- each of them is found where it was written -/
theorem Contiguous.take_drop (written : Bytes) {copies : List (ℕ × Bytes)} (h : Contiguous written.length copies)
    {c : ℕ × Bytes} (hc : c ∈ copies) (rest : Bytes) :
    ((written ++ copies.flatMap (·.2) ++ rest).drop c.1).take c.2.length = c.2 := by
  induction copies generalizing written with
  | nil => cases hc
  | cons d copies ih =>
    obtain ⟨hoff, hnext⟩ := h
    rcases List.mem_cons.1 hc with rfl | hc
    · rw [hoff, List.flatMap_cons, List.append_assoc, List.drop_left, List.append_assoc, List.take_left]
    · rw [List.flatMap_cons, ← List.append_assoc written]
      exact ih (written ++ d.2) (by rwa [List.length_append]) hc

/-! ## The datagram -/

variable (connectionId transactionId : ℕ) (infoHash peerId : Bytes)

/-- the copies in front of the field `key` -/
def prefixCopies : List (ℕ × Bytes) :=
  [(0, writeUint64 connectionId), (8, writeUint32 Tracker.announceAction), (12, writeUint32 transactionId),
    (16, infoHash), (36, peerId), (56, writeUint64 0), (64, writeUint64 0), (72, writeUint64 0), (80, writeUint32 0),
    (84, writeUint32 0)]

def prefixBytes : Bytes := (prefixCopies connectionId transactionId infoHash peerId).flatMap (·.2)

variable {connectionId transactionId infoHash peerId}

@[simp] theorem length_writeUint64 (n : ℕ) : (writeUint64 n).length = 8 := rfl

@[simp] theorem length_writeUint16 (n : ℕ) : (writeUint16 n).length = 2 := rfl

variable (connectionId transactionId) in
theorem contiguous_prefixCopies (hinfo : infoHash.length = 20) (hpeer : peerId.length = 20) :
    Contiguous ([] : Bytes).length (prefixCopies connectionId transactionId infoHash peerId) := by
  simp [prefixCopies, Contiguous, hinfo, hpeer]

variable (connectionId transactionId) in
theorem length_prefixBytes (hinfo : infoHash.length = 20) (hpeer : peerId.length = 20) :
    (prefixBytes connectionId transactionId infoHash peerId).length = 88 := by
  simp [prefixBytes, prefixCopies, hinfo, hpeer]

/-- **The datagram**: 94 bytes are written, from the first on. -/
theorem announceRequest_eq (hinfo : infoHash.length = 20) (hpeer : peerId.length = 20) :
    announceRequest connectionId transactionId (toHexString infoHash) peerId =
      .ok ((prefixBytes connectionId transactionId infoHash peerId ++ (writeUint32 maxPeersWanted ++
        writeUint16 myPort)).map some ++ List.replicate 4 none) := by
  have hcopy : ∀ bytes : Bytes, bytes.length = 20 → copyFrom (bytes ++ [0]) 0 20 = .ok bytes := by
    intro bytes hbytes
    rw [copyFrom, if_pos (by simp [hbytes]), List.drop_zero, List.take_left' hbytes]
  have hlen := length_prefixBytes connectionId transactionId hinfo hpeer
  have hprefix := foldl_memcpy [] 98 (contiguous_prefixCopies connectionId transactionId hinfo hpeer)
  rw [← prefixBytes, List.nil_append, hlen] at hprefix
  have hends : Contiguous (prefixBytes connectionId transactionId infoHash peerId).length
      [(88, writeUint32 maxPeersWanted), (92, writeUint16 myPort)] := by
    simp [Contiguous, hlen]
  have hlast := foldl_memcpy (prefixBytes connectionId transactionId infoHash peerId) 10 hends
  rw [announceRequest, hexDecode_toHexString]
  simp only [ok_bind, hcopy infoHash hinfo, hcopy peerId hpeer, pure_eq_ok, Except.ok.injEq]
  rw [show 98 - 88 = 10 from rfl] at hprefix
  rw [← hprefix] at hlast
  exact hlast

/-! ## What a tracker decodes -/

theorem readUint32_of_take {bytes : Bytes} {n off : ℕ} (h : (bytes.drop off).take 4 = writeUint32 n) (hn : n < 2 ^ 32) :
    readUint32 bytes off = n := by
  rw [readUint32, h]
  exact readUint32_writeUint32 hn []

theorem readUint64_of_take {bytes : Bytes} {n off : ℕ} (h : (bytes.drop off).take 8 = writeUint64 n) (hn : n < 2 ^ 64) :
    readUint64 bytes off = n := by
  have hhigh : (bytes.drop off).take 4 = writeUint32 (n / 2 ^ 32) := by
    have htake := congrArg (List.take 4) h
    rwa [List.take_take] at htake
  have hlow : (bytes.drop (off + 4)).take 4 = writeUint32 (n % 2 ^ 32) := by
    have hdrop := congrArg (List.drop 4) h
    rwa [List.drop_take, List.drop_drop] at hdrop
  rw [readUint64, readUint32_of_take hhigh (by omega), readUint32_of_take hlow (Nat.mod_lt n (by decide))]
  exact Nat.div_add_mod' n (2 ^ 32)

/-- **The fields in front of `key`** are those of the protocol. -/
theorem announce_front (hconnection : connectionId < 2 ^ 64) (htransaction : transactionId < 2 ^ 32)
    (hinfo : infoHash.length = 20) (hpeer : peerId.length = 20) (rest : Bytes) :
    Prefix (prefixBytes connectionId transactionId infoHash peerId ++ rest) connectionId transactionId infoHash
      peerId := by
  have hcopy : ∀ c ∈ prefixCopies connectionId transactionId infoHash peerId,
      ((prefixBytes connectionId transactionId infoHash peerId ++ rest).drop c.1).take c.2.length = c.2 :=
    fun c hc => (contiguous_prefixCopies connectionId transactionId hinfo hpeer).take_drop [] hc rest
  simp only [prefixCopies, List.forall_mem_cons, length_writeUint64, length_writeUint32, hinfo, hpeer] at hcopy
  obtain ⟨hid, haction, htid, hinfo', hpeer', hdown, hleft, hup, hevent, hip, -⟩ := hcopy
  exact
    { connectionId := readUint64_of_take hid hconnection
      action := readUint32_of_take haction (by decide)
      transactionId := readUint32_of_take htid htransaction
      infoHash := hinfo'
      peerId := hpeer'
      downloaded := readUint64_of_take hdown (by decide)
      left := readUint64_of_take hleft (by decide)
      uploaded := readUint64_of_take hup (by decide)
      event := readUint32_of_take hevent (by decide)
      ip := readUint32_of_take hip (by decide) }

/-- what is sent starts with what was written -/
theorem Sent.eq_append {written bytes : Bytes} {n : ℕ} (h : Sent (written.map some ++ List.replicate n none) bytes) :
    ∃ rest : Bytes, rest.length = n ∧ bytes = written ++ rest := by
  obtain ⟨hlen, hget⟩ := h
  rw [List.length_append, List.length_map, List.length_replicate] at hlen
  have htake : bytes.take written.length = written := by
    apply List.ext_getElem?
    intro i
    by_cases hi : i < written.length
    · rw [List.getElem?_take_of_lt hi, List.getElem?_eq_getElem hi]
      exact hget i _ (by rw [List.getElem?_append_left (by simpa using hi)]; simp [hi])
    · rw [List.getElem?_eq_none (by simp; omega), List.getElem?_eq_none (by omega)]
  refine ⟨bytes.drop written.length, by rw [List.length_drop]; omega, ?_⟩
  nth_rewrite 1 [← List.take_append_drop written.length bytes]
  rw [htake]

theorem not_conforms_of_none {request : Datagram} (h : none ∈ request) :
    ¬ Conforms request connectionId transactionId infoHash peerId := by
  intro hconforms
  obtain ⟨bytes, -, hbytes, -⟩ := hconforms
  rw [hbytes] at h
  simp at h

/-- **No request conforms.** -/
theorem announce_never_conforms (connectionId transactionId : ℕ) (infoHash peerId : Bytes)
    (hinfo : infoHash.length = 20) (hpeer : peerId.length = 20) :
    ∃ request, announceRequest connectionId transactionId (toHexString infoHash) peerId = .ok request ∧
      ¬ Conforms request connectionId transactionId infoHash peerId :=
  ⟨_, announceRequest_eq hinfo hpeer, not_conforms_of_none (List.mem_append_right _ (by simp))⟩

/-- an info hash of twenty bytes -/
def ones : Bytes := List.replicate 20 1

/-- a peer id of twenty letters -/
def letters : Bytes := List.replicate 20 65

theorem announce_never_conforms_ones : ∃ request, announceRequest 0 0 (toHexString ones) letters = .ok request ∧
    ¬ Conforms request 0 0 ones letters := announce_never_conforms 0 0 ones letters rfl rfl

/-- the end of a request: 200 at 88, 80 at 92, and nothing at 94 -/
theorem request_end : ∃ request, announceRequest 0 0 (toHexString ones) letters = .ok request ∧
    request.drop 88 = [some 0, some 0, some 0, some 200, some 0, some 80, none, none, none, none] ∧
    ¬ Conforms request 0 0 ones letters := by
  refine ⟨_, announceRequest_eq rfl rfl, rfl, not_conforms_of_none (List.mem_append_right _ (by simp))⟩

/-- **What a tracker decodes instead**: the number of peers as the key, the port as a part of the number of peers; the
port is what happens to be in two bytes that were not written. -/
theorem shifted_fields (hconnection : connectionId < 2 ^ 64) (htransaction : transactionId < 2 ^ 32)
    (hinfo : infoHash.length = 20) (hpeer : peerId.length = 20) {request : Datagram} {bytes : Bytes}
    (hrequest : announceRequest connectionId transactionId (toHexString infoHash) peerId = .ok request)
    (h : Sent request bytes) :
    Prefix bytes connectionId transactionId infoHash peerId ∧ readUint32 bytes 88 = maxPeersWanted ∧
      readUint32 bytes 92 / 2 ^ 16 = myPort ∧ readUint32 bytes 92 ≠ maxPeersWanted := by
  rw [announceRequest_eq hinfo hpeer, Except.ok.injEq] at hrequest
  subst hrequest
  obtain ⟨rest, hrest, rfl⟩ := h.eq_append
  have hlen := length_prefixBytes connectionId transactionId hinfo hpeer
  rw [List.append_assoc, List.append_assoc]
  have hkey := readUint32_behind (n := maxPeersWanted) (by decide)
    (prefixBytes connectionId transactionId infoHash peerId) (writeUint16 myPort ++ rest)
  rw [hlen] at hkey
  obtain ⟨x, y, z, w, rfl⟩ : ∃ x y z w, rest = [x, y, z, w] := by
    match rest, hrest with
    | [x, y, z, w], _ => exact ⟨x, y, z, w, rfl⟩
  have hwant : readUint32 (prefixBytes connectionId transactionId infoHash peerId ++
      (writeUint32 maxPeersWanted ++ (writeUint16 myPort ++ [x, y, z, w]))) 92 =
        (myPort * 256 + x.toNat) * 256 + y.toNat := by
    have hshift := readUint32_append (prefixBytes connectionId transactionId infoHash peerId)
      (writeUint32 maxPeersWanted ++ (writeUint16 myPort ++ [x, y, z, w])) 4
    rw [hlen] at hshift
    exact hshift
  have hx := x.toNat_lt
  have hy := y.toNat_lt
  refine ⟨announce_front hconnection htransaction hinfo hpeer _, hkey, ?_, ?_⟩
  · rw [hwant, myPort]
    omega
  · rw [hwant, myPort, maxPeersWanted]
    omega

end SimpleTorrent.UdpTracker
