/-
The UDP trackers, asked all at once.

- `extract_url`: host and port are taken from their places in a URL.
- `Effect`, `step_effect`: what a step can do.
- `Conforms`: where a coroutine stands, and what it has sent.
- `exchanges`: in whatever order the coroutines continue, and whoever sends them datagrams, each of them keeps to the
  protocol, and the set is that of the replies, taken one after the other.
- `step_fault_iff`: a step faults exactly at a reply that is shorter than the part in front of the peers.
-/
import SimpleTorrent.Model.UdpExchange
import SimpleTorrent.Properties.AnnounceRequest
import SimpleTorrent.Properties.TrackerReplies

namespace SimpleTorrent

open Checked MessageUtil
open Decimal (dotted)

/-! ## URLs -/

namespace UdpTracker

theorem find_eq_some {s pattern : Bytes} {pos i : ℕ} : find s pattern pos = some i ↔
    pos ≤ i ∧ i ≤ s.length ∧ pattern <+: s.drop i ∧ ∀ j, pos ≤ j → j < i → ¬ pattern <+: s.drop j := by
  rw [find, List.find?_range_eq_some]
  simp only [Bool.and_eq_true, decide_eq_true_eq, List.isPrefixOf_iff_prefix, List.mem_range, Nat.lt_succ_iff,
    Bool.not_eq_true', ← Bool.not_eq_true, not_and]
  constructor
  · intro h
    obtain ⟨⟨hpos, hpre⟩, hi, hfirst⟩ := h
    exact ⟨hpos, hi, hpre, fun j hj hji => hfirst j hji hj⟩
  · intro h
    obtain ⟨hpos, hi, hpre, hfirst⟩ := h
    exact ⟨⟨hpos, hpre⟩, hi, fun j hji hj => hfirst j hj hji⟩

/-- a pattern is found where its first character comes first -/
theorem find_append {front rest post : Bytes} {c : UInt8} {pos : ℕ} (hpos : pos ≤ front.length)
    (hc : c ∉ front.drop pos) : find (front ++ (c :: rest ++ post)) (c :: rest) pos = some front.length := by
  refine find_eq_some.2 ⟨hpos, by simp, ?_, fun j hj hji hpre => hc ?_⟩
  · rw [List.drop_left]
    exact List.prefix_append _ _
  · -- an earlier place would have the character, too
    rw [List.drop_append_of_le_length hji.le, List.drop_eq_getElem_cons hji] at hpre
    have hhead : c = front[j] := (List.cons_prefix_cons.1 hpre).1
    rw [hhead]
    exact List.mem_drop_iff_getElem.2 ⟨j - pos, by omega, by simp only [Nat.add_sub_cancel' hj]⟩

theorem find_eq_none {s rest : Bytes} {c : UInt8} {pos : ℕ} (hc : c ∉ s.drop pos) : find s (c :: rest) pos = none := by
  by_contra hsome
  obtain ⟨i, hi⟩ := Option.ne_none_iff_exists'.1 hsome
  obtain ⟨hpos, -, hpre, -⟩ := find_eq_some.1 hi
  refine hc (List.drop_subset (i - pos) _ ?_)
  rw [List.drop_drop, Nat.add_sub_cancel' hpos]
  exact hpre.subset List.mem_cons_self

theorem substr_some (a b c : Bytes) : substr (a ++ (b ++ c)) a.length (some (a ++ b).length) = b := by
  rw [substr, List.drop_left, Option.getD_some, List.length_append, Nat.add_sub_cancel_left, List.take_left]

theorem substr_none (a b : Bytes) : substr (a ++ b) a.length none = b := by
  rw [substr, List.drop_left, Option.getD_none, List.length_append, Nat.add_sub_cancel_left, List.take_length]

/-- up to a slash, or to the end -/
theorem substr_slash {front part path : Bytes} (hpart : slash ∉ part) (hpath : path = [] ∨ path.head? = some slash) :
    substr (front ++ (part ++ path)) front.length (find (front ++ (part ++ path)) [slash] front.length) = part := by
  rcases path with _ | ⟨b, path⟩
  · rw [List.append_nil, find_eq_none (by rwa [List.drop_left]), substr_none]
  · obtain rfl : b = slash := by simpa using hpath
    have hfind : find (front ++ part ++ ([slash] ++ path)) [slash] front.length = some (front ++ part).length :=
      find_append (by simp) (by rwa [List.drop_left])
    rw [← List.append_assoc, show slash :: path = [slash] ++ path from rfl, hfind, List.append_assoc, substr_some]

/-- **Host and port** of a URL, with a path behind them or without -/
theorem extract_url {scheme host port path : Bytes} (hscheme : colon ∉ scheme) (hhost : colon ∉ host)
    (hport : slash ∉ port) (hpath : path = [] ∨ path.head? = some slash) :
    extractHost (scheme ++ schemeEnd ++ (host ++ ([colon] ++ (port ++ path)))) = some host ∧
      extractPort (scheme ++ schemeEnd ++ (host ++ ([colon] ++ (port ++ path)))) = some port := by
  have hstart : find (scheme ++ schemeEnd ++ (host ++ ([colon] ++ (port ++ path)))) schemeEnd 0 =
      some scheme.length := by
    rw [List.append_assoc]
    exact find_append (Nat.zero_le _) hscheme
  have hlen : scheme.length + 3 = (scheme ++ schemeEnd).length := by rw [List.length_append]; rfl
  have hcolon : find (scheme ++ schemeEnd ++ (host ++ ([colon] ++ (port ++ path)))) [colon] (scheme.length + 3) =
      some (scheme ++ schemeEnd ++ host).length := by
    rw [← List.append_assoc _ host, hlen]
    exact find_append (by simp) (by rwa [List.drop_left])
  have hfront : (scheme ++ schemeEnd ++ host).length + 1 = (scheme ++ schemeEnd ++ (host ++ [colon])).length := by
    simp only [List.length_append, List.length_singleton, Nat.add_assoc]
  have hurl : scheme ++ schemeEnd ++ (host ++ ([colon] ++ (port ++ path))) =
      scheme ++ schemeEnd ++ (host ++ [colon]) ++ (port ++ path) := by
    simp only [List.append_assoc]
  constructor
  · simp only [extractHost, hstart, Option.map_some, hcolon, Option.some_or]
    rw [hlen, substr_some]
  · simp only [extractPort, hstart, Option.map_some, Option.getD_some, hcolon]
    rw [hfront, hurl, substr_slash hport hpath]

end UdpTracker

theorem Receipt.transactionId_lt (o : Receipt) : o.transactionId < 2 ^ 32 := Nat.mod_lt _ (by decide)

namespace UdpTrackers

variable {addressToString : Bytes → Bytes} {s u : UdpTrackers} {t t' : UdpTracker} {i : ℕ} {o : Receipt}
  {ops : List (ℕ × Receipt)} {trackerUrlList : List Bytes} {infoHash ourId : Bytes}

/-! ## One coroutine -/

/-- what a coroutine does between two suspensions, other than taking a reply to its announce request -/
inductive Turn (infoHash ourId : Bytes) (o : Receipt) (t : UdpTracker) : UdpTracker → Prop
  | finish : Turn infoHash ourId o t { t with exchange := .ended }
  | resolve {host port : Bytes} (h : t.exchange = .created) :
      Turn infoHash ourId o t { t with exchange := .resolve host port }
  | connect {host port : Bytes} (h : t.exchange = .resolve host port) :
      Turn infoHash ourId o t { t with
        exchange := .connect o.transactionId
        sent := t.sent ++ [UdpTracker.connectRequest o.transactionId] }
  | announce {transactionId connectionId : ℕ} {request : UdpTracker.Datagram} (h : t.exchange = .connect transactionId)
      (hthrows : o.throws = false)
      (hgrant : UdpTracker.handleConnectResponse transactionId o.uninitialised o.datagram = some connectionId)
      (hrequest : UdpTracker.announceRequest connectionId o.transactionId infoHash ourId = .ok request) :
      Turn infoHash ourId o t { t with exchange := .announce o.transactionId, sent := t.sent ++ [request] }

/-- **What a step can do.** The coroutine has ended before, takes a turn, or takes a reply. -/
inductive Effect (addressToString : Bytes → Bytes) (s : UdpTrackers) (i : ℕ) (o : Receipt) : UdpTrackers → Prop
  | idle (h : ∀ t, s.udpTrackers[i]? = some t → t.exchange = .ended) : Effect addressToString s i o s
  | turn {t t' : UdpTracker} (ht : s.udpTrackers[i]? = some t) (hturn : Turn s.infoHash s.ourId o t t') :
      Effect addressToString s i o (s.put i t')
  | reply {t : UdpTracker} {transactionId : ℕ} {r : Option Tracker} (ht : s.udpTrackers[i]? = some t)
      (h : t.exchange = .announce transactionId) (hthrows : o.throws = false)
      (hr : s.tracker.handleAnnounceResponse addressToString ⟨transactionId, o.datagram⟩ = .ok r) :
      Effect addressToString s i o { s.finish i t with
        tracker := r.getD s.tracker
        replies := s.replies ++ [(i, ⟨transactionId, o.datagram⟩)] }

theorem send_turn {request : UdpTracker.Datagram} {next : Exchange} (ht : s.udpTrackers[i]? = some t)
    (hturn : Turn s.infoHash s.ourId o t { t with exchange := next, sent := t.sent ++ [request] }) :
    Effect addressToString s i o (s.send i t o request next) := by
  rw [send]
  split_ifs
  · exact .turn ht .finish
  · exact .turn ht hturn

theorem step_effect (h : s.step addressToString (i, o) = .ok u) : Effect addressToString s i o u := by
  rw [step] at h
  split at h
  · rename_i hnone
    cases h
    exact .idle fun t ht => by rw [ht] at hnone; cases hnone
  · rename_i t ht
    rw [resume] at h
    split at h
    · rename_i hat
      split at h
      · cases h
        exact .turn ht (.resolve hat)
      · cases h
        exact .turn ht .finish
    · rename_i hat
      split_ifs at h
      · cases h
        exact .turn ht .finish
      · cases h
        exact send_turn ht (.connect hat)
    · rename_i hat
      split_ifs at h with hthrows
      · cases h
        exact .turn ht .finish
      · split at h
        · cases h
          exact .turn ht .finish
        · rename_i hgrant
          obtain ⟨request, hrequest, h⟩ := bind_eq_ok.1 h
          cases h
          exact send_turn ht (.announce hat (by simpa using hthrows) hgrant hrequest)
    · rename_i hat
      split_ifs at h with hthrows
      · cases h
        exact .turn ht .finish
      · obtain ⟨r, hr, h⟩ := bind_eq_ok.1 h
        cases h
        exact .reply ht hat (by simpa using hthrows) hr
    · rename_i hat
      cases h
      exact .idle fun t' ht' => by
        obtain rfl : t = t' := Option.some.inj (ht.symm.trans ht')
        exact hat

/-! ## The protocol -/

/-- a datagram with which coroutine `i` has continued grants a connection id for a transaction id -/
def Granted (ops : List (ℕ × Receipt)) (i transactionId connectionId : ℕ) : Prop :=
  ∃ o : Receipt, (i, o) ∈ ops ∧ o.throws = false ∧
    UdpTracker.handleConnectResponse transactionId o.uninitialised o.datagram = some connectionId

/-- where a coroutine is, and what it has sent before -/
inductive Conforms (ops : List (ℕ × Receipt)) (infoHash ourId : Bytes) (i : ℕ) :
    Exchange → List UdpTracker.Datagram → Prop
  | created : Conforms ops infoHash ourId i .created []
  | resolve (host port : Bytes) : Conforms ops infoHash ourId i (.resolve host port) []
  | connect {transactionId : ℕ} (h : transactionId < 2 ^ 32) :
      Conforms ops infoHash ourId i (.connect transactionId) [UdpTracker.connectRequest transactionId]
  | announce {first connectionId transactionId : ℕ} {request : UdpTracker.Datagram} (hfirst : first < 2 ^ 32)
      (hgrant : Granted ops i first connectionId) (h : transactionId < 2 ^ 32)
      (hrequest : UdpTracker.announceRequest connectionId transactionId infoHash ourId = .ok request) :
      Conforms ops infoHash ourId i (.announce transactionId) [UdpTracker.connectRequest first, request]
  | ended {exchange : Exchange} {sent : List UdpTracker.Datagram} (h : Conforms ops infoHash ourId i exchange sent) :
      Conforms ops infoHash ourId i .ended sent

theorem Conforms.turn (h : Conforms ops infoHash ourId i t.exchange t.sent) (ho : (i, o) ∈ ops)
    (hturn : Turn infoHash ourId o t t') : Conforms ops infoHash ourId i t'.exchange t'.sent := by
  obtain ⟨url, exchange, sent⟩ := t
  cases hturn with
  | finish => exact .ended h
  | resolve hat =>
    cases hat
    cases h
    exact .resolve _ _
  | connect hat =>
    cases hat
    cases h
    exact .connect o.transactionId_lt
  | announce hat hthrows hgrant hrequest =>
    cases hat
    cases h with
    | connect hfirst => exact .announce hfirst ⟨o, ho, hthrows, hgrant⟩ o.transactionId_lt hrequest

/-- one more reply -/
theorem addUdpPeers_snoc (s : Tracker) (udp : List (Option UdpReply)) (reply : UdpReply) :
    s.addUdpPeers addressToString (udp ++ [some reply]) = s.addUdpPeers addressToString udp >>= fun u =>
      u.handleAnnounceResponse addressToString reply >>= fun r => .ok (r.getD u) := by
  induction udp generalizing s with
  | nil => rfl
  | cons first udp ih =>
    cases first with
    | none => exact ih s
    | some first =>
      rw [List.cons_append, Tracker.addUdpPeers, Tracker.addUdpPeers]
      cases s.handleAnnounceResponse addressToString first with
      | error e => rfl
      | ok r => exact ih _

/-- what holds while the trackers are asked -/
structure Exchanged (addressToString : Bytes → Bytes) (ops : List (ℕ × Receipt)) (trackerUrlList : List Bytes)
    (infoHash ourId : Bytes) (s : UdpTrackers) : Prop where
  urls : s.udpTrackers.map (·.trackerUrl) = trackerUrlList.filter udpPrefix.isPrefixOf
  hash : s.infoHash = infoHash
  id : s.ourId = ourId
  conforms : ∀ i t, s.udpTrackers[i]? = some t → Conforms ops infoHash ourId i t.exchange t.sent
  /-- a reply is for the announce request of its tracker, which has ended with it -/
  answered : ∀ r ∈ s.replies, ∃ t, s.udpTrackers[r.1]? = some t ∧ t.exchange = .ended ∧
    Conforms ops infoHash ourId r.1 (.announce r.2.transactionId) t.sent
  once : (s.replies.map (·.1)).Nodup
  /-- the replies, one after the other -/
  taken : Tracker.new.addUdpPeers addressToString (s.replies.map fun r => some r.2) = .ok s.tracker

theorem new_exchanged (trackerUrlList : List Bytes) :
    (new trackerUrlList infoHash ourId).Exchanged addressToString ops trackerUrlList infoHash ourId where
  urls := by rw [new, List.map_map]; exact List.map_id _
  hash := rfl
  id := rfl
  conforms i t ht := by
    obtain ⟨url, -, rfl⟩ := List.mem_map.1 (List.mem_of_getElem? ht)
    exact .created
  answered r hr := by cases hr
  once := List.nodup_nil
  taken := rfl

theorem Turn.eq_of_ended (hturn : Turn infoHash ourId o t t') (h : t.exchange = .ended) : t' = t := by
  obtain ⟨url, exchange, sent⟩ := t
  cases h
  cases hturn with
  | finish => rfl
  | resolve hat => cases hat
  | connect hat => cases hat
  | announce hat => cases hat

theorem getElem?_put (ht : s.udpTrackers[i]? = some t) : (s.put i t').udpTrackers[i]? = some t' :=
  List.getElem?_set_self (List.getElem?_eq_some_iff.1 ht).1

theorem getElem?_put_of_ne {j : ℕ} (h : j ≠ i) : (s.put i t').udpTrackers[j]? = s.udpTrackers[j]? :=
  List.getElem?_set_ne (Ne.symm h)

theorem put_urls (ht : s.udpTrackers[i]? = some t) (hurl : t'.trackerUrl = t.trackerUrl) :
    (s.put i t').udpTrackers.map (·.trackerUrl) = s.udpTrackers.map (·.trackerUrl) := by
  have hsame : (s.udpTrackers.map (·.trackerUrl))[i]? = some t.trackerUrl := by
    rw [List.getElem?_map, ht, Option.map_some]
  obtain ⟨hi, hget⟩ := List.getElem?_eq_some_iff.1 hsame
  rw [put, List.map_set, hurl, ← hget, List.set_getElem_self]

theorem Turn.trackerUrl (hturn : Turn infoHash ourId o t t') : t'.trackerUrl = t.trackerUrl := by
  cases hturn <;> rfl

theorem Effect.exchanged (h : s.Exchanged addressToString ops trackerUrlList infoHash ourId) (ho : (i, o) ∈ ops)
    (he : Effect addressToString s i o u) : u.Exchanged addressToString ops trackerUrlList infoHash ourId := by
  cases he with
  | idle => exact h
  | @turn t t' ht hturn =>
    rw [h.hash, h.id] at hturn
    refine { h with urls := (put_urls ht hturn.trackerUrl).trans h.urls, conforms := fun j v hv => ?_, answered := ?_ }
    · rcases getElem?_set_eq_some hv with ⟨rfl, rfl⟩ | ⟨-, hv⟩
      · exact (h.conforms j t ht).turn ho hturn
      · exact h.conforms j v hv
    · intro r hr
      obtain ⟨v, hv, hended, hsent⟩ := h.answered r hr
      by_cases hri : r.1 = i
      · -- a coroutine that has ended does not change
        obtain rfl : t = v := Option.some.inj (ht.symm.trans (hri ▸ hv))
        rw [hturn.eq_of_ended hended, hri]
        exact ⟨t, getElem?_put ht, hended, hri ▸ hsent⟩
      · exact ⟨v, (getElem?_put_of_ne hri).trans hv, hended, hsent⟩
  | @reply t transactionId r ht hat hthrows hr =>
    have hsent := h.conforms i t ht
    rw [hat] at hsent
    have hnew : ∀ r ∈ s.replies, r.1 ≠ i := by
      intro r hr hri
      obtain ⟨v, hv, hended, -⟩ := h.answered r hr
      obtain rfl : t = v := Option.some.inj (ht.symm.trans (hri ▸ hv))
      rw [hat] at hended
      cases hended
    have hurls : (s.finish i t).udpTrackers.map (·.trackerUrl) = s.udpTrackers.map (·.trackerUrl) := by
      rw [finish]
      exact put_urls ht rfl
    refine ⟨hurls.trans h.urls, h.hash, h.id, fun j v hv => ?_, fun q hq => ?_, ?_, ?_⟩
    · rcases getElem?_set_eq_some hv with ⟨rfl, rfl⟩ | ⟨-, hv⟩
      · exact .ended hsent
      · exact h.conforms j v hv
    · rcases List.mem_append.1 hq with hq | hq
      · obtain ⟨v, hv, hv'⟩ := h.answered q hq
        exact ⟨v, (getElem?_put_of_ne (hnew q hq)).trans hv, hv'⟩
      · obtain rfl := List.mem_singleton.1 hq
        exact ⟨_, getElem?_put ht, rfl, hsent⟩
    · rw [List.map_append, List.nodup_append]
      refine ⟨h.once, List.nodup_singleton _, fun a ha b hb => ?_⟩
      obtain ⟨q, hq, rfl⟩ := List.mem_map.1 ha
      obtain rfl := List.mem_singleton.1 hb
      exact hnew q hq
    · rw [List.map_append, List.map_singleton, addUdpPeers_snoc, h.taken, ok_bind, hr, ok_bind]

theorem run_exchanged
    (h : runM (step addressToString) (new trackerUrlList infoHash ourId) ops = .ok s) :
    s.Exchanged addressToString ops trackerUrlList infoHash ourId :=
  runM_inv (P := (· ∈ ops)) (fun _ _ _ hs ho hstep => (step_effect hstep).exchanged hs ho)
    (new_exchanged trackerUrlList) (fun _ ho => ho) h

/-- at most one reply for each tracker -/
theorem Exchanged.length_replies (h : s.Exchanged addressToString ops trackerUrlList infoHash ourId) :
    s.replies.length ≤ trackerUrlList.length := by
  have hin : ∀ i ∈ s.replies.map (·.1), i ∈ List.range s.udpTrackers.length := by
    intro i hi
    obtain ⟨r, hr, rfl⟩ := List.mem_map.1 hi
    obtain ⟨t, ht, -⟩ := h.answered r hr
    exact List.mem_range.2 (List.getElem?_eq_some_iff.1 ht).1
  calc s.replies.length = (s.replies.map (·.1)).length := List.length_map _ |>.symm
    _ ≤ (List.range s.udpTrackers.length).length := (h.once.subperm hin).length_le
    _ = (s.udpTrackers.map (·.trackerUrl)).length := by rw [List.length_range, List.length_map]
    _ ≤ trackerUrlList.length := by rw [h.urls]; exact List.length_filter_le _ _

/-! ## The end -/

/-- how often a coroutine has to be resumed until it has ended -/
def stage : Exchange → ℕ
  | .created => 4
  | .resolve _ _ => 3
  | .connect _ => 2
  | .announce _ => 1
  | .ended => 0

theorem stage_le (exchange : Exchange) : stage exchange ≤ 4 := by cases exchange <;> simp [stage]

theorem Turn.stage_le (hturn : Turn infoHash ourId o t t') : stage t'.exchange ≤ stage t.exchange - 1 := by
  cases hturn with
  | finish => exact Nat.zero_le _
  | resolve hat => rw [hat]; exact le_rfl
  | connect hat => rw [hat]; exact le_rfl
  | announce hat => rw [hat]; exact le_rfl

/-- a step takes its coroutine one stage on, and no other one back -/
theorem Effect.stage_le (he : Effect addressToString s i o u) {j : ℕ} (hj : u.udpTrackers[j]? = some t') :
    ∃ t, s.udpTrackers[j]? = some t ∧ stage t'.exchange ≤ stage t.exchange - if i = j then 1 else 0 := by
  cases he with
  | idle h =>
    refine ⟨t', hj, ?_⟩
    split_ifs with hij
    · rw [h t' (hij ▸ hj)]
      exact le_rfl
    · exact le_rfl
  | @turn t v ht hturn =>
    rcases getElem?_set_eq_some hj with ⟨rfl, rfl⟩ | ⟨hne, hj⟩
    · exact ⟨t, ht, by rw [if_pos rfl]; exact hturn.stage_le⟩
    · exact ⟨t', hj, by rw [if_neg (Ne.symm hne)]; exact le_rfl⟩
  | @reply t transactionId r ht hat hthrows hr =>
    rcases getElem?_set_eq_some hj with ⟨rfl, rfl⟩ | ⟨hne, hj⟩
    · exact ⟨t, ht, Nat.zero_le _⟩
    · exact ⟨t', hj, by rw [if_neg (Ne.symm hne)]; exact le_rfl⟩

theorem run_stage (h : runM (step addressToString) s ops = .ok u) {j : ℕ} (hj : u.udpTrackers[j]? = some t') :
    ∃ t, s.udpTrackers[j]? = some t ∧ stage t'.exchange ≤ stage t.exchange - (ops.map (·.1)).count j := by
  induction ops generalizing s with
  | nil =>
    cases h
    exact ⟨t', hj, le_rfl⟩
  | cons o ops ih =>
    obtain ⟨v, hv, h⟩ := bind_eq_ok.1 h
    obtain ⟨t₁, ht₁, hle₁⟩ := ih h
    obtain ⟨t, ht, hle⟩ := (step_effect hv).stage_le ht₁
    refine ⟨t, ht, ?_⟩
    rw [List.map_cons, List.count_cons]
    simp only [beq_iff_eq]
    split_ifs at hle ⊢ <;> omega

theorem run_finished (h : runM (step addressToString) s ops = .ok u)
    (hops : ∀ i < u.udpTrackers.length, 4 ≤ (ops.map (·.1)).count i) : u.finished = true := by
  refine List.all_eq_true.2 fun t ht => ?_
  obtain ⟨i, hi, rfl⟩ := List.mem_iff_getElem.1 ht
  obtain ⟨t₀, -, hle⟩ := run_stage h (List.getElem?_eq_getElem hi)
  have hmany := hops i hi
  have hstage : stage u.udpTrackers[i].exchange = 0 := by
    have hfour := stage_le t₀.exchange
    omega
  rw [beq_iff_eq]
  cases hexchange : u.udpTrackers[i].exchange with
  | ended => rfl
  | _ => rw [hexchange] at hstage; cases hstage

/-- **The trackers are asked by the protocol**, whatever order their coroutines continue in, and whoever sends them
datagrams. Each sends at most one connect request, and then at most one announce request with a connection id that was
granted for the first; the set of peers is that of the replies to the latter, at most one for each tracker. When each
coroutine has continued four times, all have ended. -/
theorem exchanges (addressToString : Bytes → Bytes) (trackerUrlList : List Bytes) (infoHash ourId : Bytes)
    (ops : List (ℕ × Receipt)) (s : UdpTrackers)
    (h : runM (step addressToString) (new trackerUrlList infoHash ourId) ops = .ok s) :
    s.Exchanged addressToString ops trackerUrlList infoHash ourId ∧
      ((∀ i < s.udpTrackers.length, 4 ≤ (ops.map (·.1)).count i) → s.finished = true) :=
  ⟨run_exchanged h, run_finished h⟩

/-- "udp://a:1" -/
def oneUrl : Bytes := [117, 100, 112, 58, 47, 47, 97, 58, 49]

/-- a receipt of the only tracker -/
def receives (datagram : Bytes) (random : ℕ) : ℕ × Receipt := (0, ⟨false, datagram, [], random, false⟩)

/-- it is resolved, grants connection id 9 for transaction id 5, and returns one peer for transaction id 6 -/
def oneExchange : List (ℕ × Receipt) :=
  [receives [] 0, receives [] 5, receives [0, 0, 0, 0, 0, 0, 0, 5, 0, 0, 0, 0, 0, 0, 0, 9] 6,
    receives (Tracker.header7.take 7 ++ [6] ++ List.replicate 12 0 ++ [1, 2, 3, 4, 0, 80]) 0]

theorem exchanges_one : ∃ s, runM (step dotted) (new [oneUrl] (toHexString UdpTracker.ones) UdpTracker.letters)
    oneExchange = .ok s ∧ s.Exchanged dotted oneExchange [oneUrl] (toHexString UdpTracker.ones) UdpTracker.letters ∧
    ((∀ i < s.udpTrackers.length, 4 ≤ (oneExchange.map (·.1)).count i) → s.finished = true) := by
  have hsome : (runM (step dotted) (new [oneUrl] (toHexString UdpTracker.ones) UdpTracker.letters)
      oneExchange).toOption.isSome = true := by decide +kernel
  obtain ⟨s, hs⟩ := Option.isSome_iff_exists.1 hsome
  rw [toOption_eq_some] at hs
  exact ⟨s, hs, exchanges dotted [oneUrl] _ _ oneExchange s hs⟩

/-! ## Faults -/

section Faults

variable {reply : UdpReply} {tracker : Tracker}

/-- a reply that is shorter than what stands in front of the peers, and is not refused -/
def Truncated (reply : UdpReply) : Prop := (Tracker.received reply).length < 20 ∧
  Tracker.Header Tracker.announceAction reply.transactionId (Tracker.announceBuffer reply)

variable (addressToString tracker) in
theorem handleAnnounceResponse_fault_iff :
    (∃ f, tracker.handleAnnounceResponse addressToString reply = .error f) ↔ Truncated reply := by
  constructor
  · intro h
    obtain ⟨f, hf⟩ := h
    by_cases hheader : Tracker.Header Tracker.announceAction reply.transactionId (Tracker.announceBuffer reply)
    · refine ⟨?_, hheader⟩
      by_contra hlen
      obtain ⟨u, hu, -⟩ := Tracker.handleAnnounceResponse_ok addressToString tracker (by omega)
        ((Tracker.header_announceBuffer (by omega)).1 hheader)
      rw [hu] at hf
      cases hf
    · rw [Tracker.handleAnnounceResponse_eq, if_neg hheader] at hf
      cases hf
  · intro h
    exact ⟨_, Tracker.handleAnnounceResponse_error h.1 h.2⟩

variable (addressToString i o) in
/-- a step faults at a truncated reply only -/
theorem step_fault_iff {digest : Bytes} (hhash : s.infoHash = toHexString digest) (hdigest : digest.length = 20)
    (hid : s.ourId.length = 20) : (∃ f, s.step addressToString (i, o) = .error f) ↔
      ∃ t transactionId, s.udpTrackers[i]? = some t ∧ t.exchange = .announce transactionId ∧ o.throws = false ∧
        Truncated ⟨transactionId, o.datagram⟩ := by
  constructor
  · intro h
    obtain ⟨f, hf⟩ := h
    rw [step] at hf
    split at hf
    · cases hf
    · rename_i t ht
      rw [resume] at hf
      split at hf
      · split at hf <;> cases hf
      · split_ifs at hf
      · split_ifs at hf
        split at hf
        · cases hf
        · -- a request can always be written
          rw [hhash, UdpTracker.announceRequest_eq hdigest hid] at hf
          cases hf
      · rename_i transactionId hat
        split_ifs at hf with hthrows
        refine ⟨t, transactionId, ht, hat, by simpa using hthrows,
          (handleAnnounceResponse_fault_iff addressToString s.tracker).1 ⟨f, ?_⟩⟩
        dsimp only at hf
        cases hr : s.tracker.handleAnnounceResponse addressToString ⟨transactionId, o.datagram⟩ with
        | ok r => rw [hr] at hf; cases hf
        | error e => rw [hr] at hf; cases hf; rfl
      · cases hf
  · intro h
    obtain ⟨t, transactionId, ht, hat, hthrows, hshort⟩ := h
    obtain ⟨f, hf⟩ := (handleAnnounceResponse_fault_iff addressToString s.tracker).2 hshort
    refine ⟨f, ?_⟩
    simp only [step, ht, resume, hat, hthrows, Bool.false_eq_true, if_false, hf, error_bind]

end Faults

end UdpTrackers

end SimpleTorrent
