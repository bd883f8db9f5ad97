/-
What becomes of the peers that trackers contribute.

A peer goes into the set as "ip:port", and `split_conn_string` cuts at the first colon. So an address with a colon in it,
as every IPv6 address has, does not come back, and neither does a port that is no 16-bit number; in most cases
`get_peers` throws, and no peer comes back at all.

- `Recorded`: the set holds the strings of the pairs that were inserted, each once.
- `survive_iff`: the pairs all come back, each once and unchanged, exactly if none of them is of this kind.
- `udp_survive`: the peers of UDP trackers always do.
- `ipv6_aborts`: one IPv6 address, and the valid one beside it is lost.
-/
import Mathlib.Data.List.TakeWhile
import SimpleTorrent.Model.Tracker

namespace SimpleTorrent

open Checked Decimal MessageUtil

/-! ## One peer -/

/-- a pair that `PeerConnInfo` can hold, and a string can -/
def Representable (e : Bytes × ℤ) : Prop := colon ∉ e.1 ∧ 0 ≤ e.2 ∧ e.2 ≤ 65535

instance (e : Bytes × ℤ) : Decidable (Representable e) := by unfold Representable; infer_instance

theorem colon_not_mem_render (n : ℤ) : colon ∉ render n := not_mem_render (by decide) (by decide) n

/-- the parts of a string, if the first has no colon -/
theorem connString_inj {ip ip' : Bytes} {port port' : ℤ} (h : colon ∉ ip)
    (he : connString ip port = connString ip' port') : ip = ip' ∧ port = port' := by
  obtain ⟨hip, -, hport⟩ := (List.append_cons_inj_of_notMem h (colon_not_mem_render port)).1 he
  exact ⟨hip, render_injective hport⟩

theorem stoi_render (n : ℤ) : stoi (render n) = if -2 ^ 31 ≤ n ∧ n < 2 ^ 31 then .ok n else .error .intOutOfRange := by
  simp only [stoi, scan_render_nil]

theorem splitConnString_join {ip : Bytes} (h : colon ∉ ip) (rest : Bytes) :
    splitConnString (ip ++ colon :: rest) = stoi rest >>= fun intPort =>
      if intPort < 0 ∨ 65535 < intPort then .error .portOutOfRange else pure ⟨ip, intPort.toNat⟩ := by
  have hmem : colon ∈ ip ++ colon :: rest := List.mem_append_right _ List.mem_cons_self
  have hall : ∀ b ∈ ip, decide (b ≠ colon) = true := by
    intro b hb
    exact decide_eq_true fun hbc => h (hbc ▸ hb)
  have htake : (ip ++ colon :: rest).takeWhile (· ≠ colon) = ip := by
    rw [List.takeWhile_append_of_pos hall]
    simp
  have hdrop : (ip ++ colon :: rest).dropWhile (· ≠ colon) = colon :: rest := by
    rw [List.dropWhile_append_of_pos hall]
    simp
  simp only [splitConnString, if_pos hmem, htake, hdrop, List.drop_succ_cons, List.drop_zero]

/-- a pair without a colon comes back exactly if its port fits -/
theorem splitConnString_connString {ip : Bytes} (h : colon ∉ ip) (port : ℤ) (p : PeerConnInfo) :
    splitConnString (connString ip port) = .ok p ↔ 0 ≤ port ∧ port ≤ 65535 ∧ p = ⟨ip, port.toNat⟩ := by
  rw [connString, splitConnString_join h, stoi_render]
  by_cases hint : -2 ^ 31 ≤ port ∧ port < 2 ^ 31
  · rw [if_pos hint, ok_bind]
    by_cases hport : port < 0 ∨ 65535 < port
    · rw [if_pos hport]
      simp only [reduceCtorEq, false_iff]
      omega
    · rw [if_neg hport, pure_eq_ok, Except.ok.injEq]
      constructor
      · intro hp
        subst hp
        exact ⟨by omega, by omega, rfl⟩
      · intro hp
        rw [hp.2.2]
  · rw [if_neg hint, error_bind]
    simp only [reduceCtorEq, false_iff]
    omega

/-- what comes back of any inserted pair has no colon and a port that fits -/
theorem splitConnString_representable {ip : Bytes} {port : ℤ} {p : PeerConnInfo}
    (h : splitConnString (connString ip port) = .ok p) : Representable (p.ip, (p.port : ℤ)) := by
  have hmem : colon ∈ connString ip port := List.mem_append_right _ List.mem_cons_self
  simp only [splitConnString, if_pos hmem] at h
  rw [bind_eq_ok] at h
  obtain ⟨intPort, -, h⟩ := h
  split_ifs at h with hport
  cases h
  refine ⟨?_, by simp only; omega, by simp only; omega⟩
  intro hcolon
  have hne := List.mem_takeWhile_imp hcolon
  exact absurd hne (by simp)

/-! ## The set -/

namespace Tracker

variable {s t : Tracker}

/-- the set holds the strings of what was inserted -/
structure Recorded (s : Tracker) : Prop where
  nodup : s.peerSet.Nodup
  mem : ∀ c, c ∈ s.peerSet ↔ ∃ e ∈ s.inserted, c = connString e.1 e.2

theorem new_recorded : new.Recorded := ⟨List.nodup_nil, by simp [new]⟩

theorem Recorded.insertPeer (h : s.Recorded) (ip : Bytes) (port : ℤ) : (s.insertPeer ip port).Recorded := by
  have hmem : ∀ c, c ∈ s.peerSet ∨ c = connString ip port ↔
      ∃ e ∈ s.inserted ++ [(ip, port)], c = connString e.1 e.2 := by
    intro c
    simp only [h.mem, List.mem_append, List.mem_singleton, or_and_right, exists_or, exists_eq_left]
  by_cases hin : connString ip port ∈ s.peerSet
  · refine ⟨by simpa [Tracker.insertPeer, hin] using h.nodup, ?_⟩
    intro c
    rw [Tracker.insertPeer, ← hmem]
    simp only [if_pos hin, iff_self_or]
    intro hc
    rw [hc]
    exact hin
  · refine ⟨?_, ?_⟩
    · simpa [Tracker.insertPeer, hin, List.nodup_append] using ⟨h.nodup, fun c hc he => hin (he ▸ hc)⟩
    · intro c
      rw [Tracker.insertPeer, ← hmem]
      simp only [if_neg hin, List.mem_append, List.mem_singleton]

/-! ## What trackers insert -/

section Rules

variable {addressToString : Bytes → Bytes} {P : Tracker → Prop}

theorem addPeerList_rule (hstep : ∀ u ip port, P u → P (u.insertPeer ip port)) (hs : P s) (l : List Bencode) :
    P (s.addPeerList l).2 := by
  induction l generalizing s with
  | nil => exact hs
  | cons peer rest ih =>
    rw [addPeerList]
    split
    · exact hs
    · exact ih (hstep _ _ _ hs)

theorem readUint16_lt (bytes : Bytes) (off : ℕ) : readUint16 bytes off < 2 ^ 16 :=
  calc readUint16 bytes off < 256 ^ ((bytes.drop off).take 2).length := foldl_bytes_lt _
    _ ≤ 256 ^ 2 := Nat.pow_le_pow_right (by decide) (by simp)
    _ = 2 ^ 16 := by norm_num

theorem addRecords_rule (hstep : ∀ u b (k : ℕ), k < 2 ^ 16 → P u → P (u.insertPeer (addressToString b) k))
    (hs : P s) {buffer : Bytes} {count off : ℕ} (h : s.addRecords addressToString buffer count off = .ok t) : P t := by
  induction count generalizing s off with
  | zero =>
    cases h
    exact hs
  | succ count ih =>
    rw [addRecords] at h
    split_ifs at h
    exact ih (hstep _ _ _ (readUint16_lt _ _) hs) h

theorem addUdpPeers_rule (hstep : ∀ u b (k : ℕ), k < 2 ^ 16 → P u → P (u.insertPeer (addressToString b) k))
    (hs : P s) {udp : List (Option UdpReply)} (h : s.addUdpPeers addressToString udp = .ok t) : P t := by
  induction udp generalizing s with
  | nil =>
    cases h
    exact hs
  | cons reply rest ih =>
    cases reply with
    | none => exact ih hs h
    | some reply =>
      rw [addUdpPeers, bind_eq_ok] at h
      obtain ⟨r, hr, h⟩ := h
      rw [handleAnnounceResponse] at hr
      split_ifs at hr
      · cases hr
        exact ih hs h
      · rw [bind_eq_ok] at hr
        obtain ⟨u, hu, hr⟩ := hr
        cases hr
        exact ih (addRecords_rule hstep hs hu) h

theorem parseTrackerResponse_rule (hstep : ∀ u ip port, P u → P (u.insertPeer ip port)) (hs : P s)
    {response : Bencode} {e : Option BencodeError} (h : s.parseTrackerResponse addressToString response = .ok (e, t)) :
    P t := by
  rw [parseTrackerResponse] at h
  split at h
  · cases h
    exact hs
  · rename_i l _
    have hrule := addPeerList_rule hstep hs l
    rw [Except.ok.inj h] at hrule
    exact hrule
  · rw [bind_eq_ok] at h
    obtain ⟨u, hu, h⟩ := h
    cases h
    exact addRecords_rule (fun u b k _ => hstep u _ _) hs hu
  · cases h
    exact hs

theorem addHttpPeers_rule (hstep : ∀ u ip port, P u → P (u.insertPeer ip port)) (hs : P s) {http : List HttpReply}
    (h : s.addHttpPeers addressToString http = .ok t) : P t := by
  induction http generalizing s with
  | nil =>
    cases h
    exact hs
  | cons reply rest ih =>
    cases reply with
    | failed => exact ih hs h
    | malformed => cases h
    | decoded response =>
      rw [addHttpPeers, bind_eq_ok] at h
      obtain ⟨⟨e, u⟩, hu, h⟩ := h
      exact ih (parseTrackerResponse_rule hstep hs (mapError_eq_ok.1 hu)) h

theorem addPeers_rule (hstep : ∀ u ip port, P u → P (u.insertPeer ip port)) (hs : P new)
    {udp : List (Option UdpReply)} {http : List HttpReply} (h : addPeers addressToString udp http = .ok t) : P t := by
  rw [addPeers, bind_eq_ok] at h
  obtain ⟨u, hu, h⟩ := h
  have hudp := addUdpPeers_rule (fun u b k _ => hstep u _ _) hs (mapError_eq_ok.1 hu)
  split_ifs at h
  · cases h
    exact hudp
  · exact addHttpPeers_rule hstep hudp h

end Rules

/-! ## What comes back -/

/-- every pair with a 16-bit port comes back, once and unchanged, and nothing else does -/
def Survive (s : Tracker) (order : List Bytes) : Prop :=
  ∃ res, getPeers order = .ok res ∧ res.Nodup ∧
    ∀ ip port, (⟨ip, port⟩ : PeerConnInfo) ∈ res ↔ (ip, (port : ℤ)) ∈ s.inserted ∧ port ≤ 65535

/-- a string of the set -/
theorem Recorded.mem_order (h : s.Recorded) {order : List Bytes} (ho : order.Perm s.peerSet) (c : Bytes) :
    c ∈ order ↔ ∃ e ∈ s.inserted, c = connString e.1 e.2 := ho.mem_iff.trans (h.mem c)

theorem Recorded.survive (h : s.Recorded) {order : List Bytes} (ho : order.Perm s.peerSet)
    (hrep : ∀ e ∈ s.inserted, Representable e) : s.Survive order := by
  -- a pair comes back as itself, and determines its string
  have hsplit : ∀ e ∈ s.inserted, ∀ p, splitConnString (connString e.1 e.2) = .ok p ↔ p = ⟨e.1, e.2.toNat⟩ := by
    intro e he p
    obtain ⟨hcolon, hlow, hhigh⟩ := hrep e he
    rw [splitConnString_connString hcolon]
    simp only [hlow, hhigh, true_and]
  have hok : ∀ c ∈ order, ∃ p, splitConnString c = .ok p := by
    intro c hc
    obtain ⟨e, he, rfl⟩ := (h.mem_order ho c).1 hc
    exact ⟨_, (hsplit e he _).2 rfl⟩
  obtain ⟨res, hres⟩ := exists_mapM_eq_ok hok
  refine ⟨res, hres, ?_, ?_⟩
  · rw [nodup_mapM hres]
    refine (ho.nodup_iff.2 h.nodup).imp_of_mem ?_
    intro c c' hc hc' hne heq
    obtain ⟨e, he, rfl⟩ := (h.mem_order ho c).1 hc
    obtain ⟨e', he', rfl⟩ := (h.mem_order ho c').1 hc'
    rw [(hsplit e he _).2 rfl, eq_comm, hsplit e' he', PeerConnInfo.mk.injEq] at heq
    obtain ⟨-, hlow, -⟩ := hrep e he
    obtain ⟨-, hlow', -⟩ := hrep e' he'
    have hport : e.2 = e'.2 := by omega
    exact hne (by rw [heq.1, hport])
  · intro ip port
    rw [mem_mapM hres]
    constructor
    · intro hback
      obtain ⟨c, hc, hp⟩ := hback
      obtain ⟨e, he, rfl⟩ := (h.mem_order ho c).1 hc
      rw [hsplit e he, PeerConnInfo.mk.injEq] at hp
      obtain ⟨-, hlow, hhigh⟩ := hrep e he
      have hport : (port : ℤ) = e.2 := by omega
      exact ⟨by rw [hp.1, hport]; exact he, by omega⟩
    · intro hin
      obtain ⟨he, -⟩ := hin
      refine ⟨_, (h.mem_order ho _).2 ⟨_, he, rfl⟩, (hsplit _ he _).2 ?_⟩
      rw [Int.toNat_natCast]

theorem Recorded.representable (h : s.Recorded) {order : List Bytes} (ho : order.Perm s.peerSet)
    (hs : s.Survive order) : ∀ e ∈ s.inserted, Representable e := by
  obtain ⟨res, hres, hnodup, hback⟩ := hs
  intro e he
  have hc : connString e.1 e.2 ∈ order := (h.mem_order ho _).2 ⟨e, he, rfl⟩
  -- its string comes back as some pair `p`, which was inserted, too
  obtain ⟨p, hp⟩ := exists_of_mapM hres hc
  have hrep := splitConnString_representable hp
  have hpres : p ∈ res := (mem_mapM hres p).2 ⟨_, hc, hp⟩
  obtain ⟨hin, -⟩ := (hback p.ip p.port).1 hpres
  -- the string of `p` comes back as `p`, so it is the same string
  have hp' : splitConnString (connString p.ip p.port) = .ok p :=
    (splitConnString_connString hrep.1 _ _).2 ⟨hrep.2.1, hrep.2.2, by rw [Int.toNat_natCast]⟩
  have hc' : connString p.ip p.port ∈ order := (h.mem_order ho _).2 ⟨_, hin, rfl⟩
  have hsame := mapM_inj hres hnodup hc' hc (hp'.trans hp.symm)
  have hpe : ((p.ip, (p.port : ℤ)) : Bytes × ℤ) = e := Prod.ext_iff.2 (connString_inj hrep.1 hsame)
  exact hpe ▸ hrep

/-- **Which peers survive the string set.** Whatever the trackers send, and in whatever order the set lists its elements,
the inserted pairs all come back, each once and unchanged, exactly if no address among them contains a colon and every
port is a 16-bit number. -/
theorem survive_iff (addressToString : Bytes → Bytes) (udp : List (Option UdpReply)) (http : List HttpReply)
    (s : Tracker) (h : addPeers addressToString udp http = .ok s) (order : List Bytes) (ho : order.Perm s.peerSet) :
    s.Survive order ↔ ∀ e ∈ s.inserted, Representable e := by
  have hrec : s.Recorded := addPeers_rule (fun u ip port hu => hu.insertPeer ip port) new_recorded h
  exact ⟨hrec.representable ho, hrec.survive ho⟩

/-- "127.0.0.1" -/
def localhost : Bytes := [49, 50, 55, 46, 48, 46, 48, 46, 49]

/-- a response in dictionary form -/
def listOf (peers : List (Bytes × ℤ)) : HttpReply :=
  .decoded (.dict [(peersKey, .list (peers.map fun e => .dict [(ipKey, .string e.1), (portKey, .integer e.2)]))])

theorem survive_iff_localhost : ∃ s, addPeers dotted [] [listOf [(localhost, 6881), (localhost, 6882)]] = .ok s ∧
    (s.Survive s.peerSet ↔ ∀ e ∈ s.inserted, Representable e) :=
  ⟨_, rfl, survive_iff dotted [] [listOf [(localhost, 6881), (localhost, 6882)]] _ rfl _ (List.Perm.refl _)⟩

/-- **UDP trackers are safe.** If they return any peer, then all peers survive: HTTP trackers are not asked, and no IPv4
address has a colon. -/
theorem udp_survive {addressToString : Bytes → Bytes} (hcolon : ∀ b, colon ∉ addressToString b)
    {udp : List (Option UdpReply)} {http : List HttpReply} (h : addPeers addressToString udp http = .ok s)
    (hudp : new.addUdpPeers addressToString udp = .ok t) (hsome : 0 < t.peerSet.length) {order : List Bytes}
    (ho : order.Perm s.peerSet) : s.Survive order := by
  have hst : t = s := by
    rw [addPeers, hudp] at h
    simp only [Except.mapError, ok_bind, if_pos hsome] at h
    exact Except.ok.inj h
  subst hst
  have hrec : t.Recorded := addPeers_rule (fun u ip port hu => hu.insertPeer ip port) new_recorded h
  refine hrec.survive ho ?_
  refine addUdpPeers_rule (P := fun u => ∀ e ∈ u.inserted, Representable e) ?_ ?_ hudp
  · intro u b k hk hu e he
    rcases List.mem_append.1 he with he | he
    · exact hu e he
    · rw [List.mem_singleton.1 he]
      exact ⟨hcolon b, by simp, by simp only; omega⟩
  · intro e he
    cases he

/-- with "::1" among them no peer comes back; "1:2:3:4:5:6:7:8" comes back as port 2 of "1" -/
theorem ipv6_aborts :
    (∃ s, addPeers dotted [] [listOf [(localhost, 6881), ([58, 58, 49], 6881)]] = .ok s ∧
      getPeers s.peerSet = .error .noConversion ∧ ¬ s.Survive s.peerSet) ∧
    ∃ s, addPeers dotted [] [listOf [([49, 58, 50, 58, 51, 58, 52, 58, 53, 58, 54, 58, 55, 58, 56], 6881)]] = .ok s ∧
      getPeers s.peerSet = .ok [⟨[49], 2⟩] := by
  refine ⟨⟨_, rfl, by decide, ?_⟩, _, rfl, by decide⟩
  intro hs
  obtain ⟨res, hres, -⟩ := hs
  rw [show getPeers _ = .error .noConversion by decide] at hres
  cases hres

end Tracker

end SimpleTorrent
