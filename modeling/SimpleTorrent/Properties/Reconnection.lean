/-
The bookkeeping of the connection pool.

Each address is tried at most twice, and its state says how often it was tried and whether it has a `Peer` now.

- `Books`: the invariant, with the list of live peers as an argument, since `cleanup_connections` takes them out of the
  books one by one while `peers_` still holds them all.
- `Books.drop`, `Books.connect`: a peer is dropped, an address is tried.
- `bookkeeping`: for at most 2^32 addresses no run throws, and every state reached is in order.
- `ids_run_out`: one address more, and some run is not. Ids are 32-bit numbers, and the last address shares its id with
  the first.
-/
import SimpleTorrent.Core.Decimal
import SimpleTorrent.Model.MessageUtil
import SimpleTorrent.Model.PeerManager

namespace SimpleTorrent

open Checked

namespace PeerState

def isConnected : PeerState → Bool
  | .connected1 | .connected2 => true
  | _ => false

/-- `open_connections` tries an address in this state -/
def Connectable (state : PeerState) : Prop := state = .notConnected ∨ state = .disconnected1

instance (state : PeerState) : Decidable state.Connectable := by unfold Connectable; infer_instance

/-- how often an address in this state was tried -/
def tries : PeerState → ℕ
  | .notConnected => 0
  | .connected1 | .disconnected1 => 1
  | .connected2 | .disconnected2 => 2

theorem tries_le (state : PeerState) : state.tries ≤ 2 := by cases state <;> decide

/-- a connected address can be disconnected -/
theorem next_of_isConnected {state : PeerState} (h : state.isConnected = true) :
    ∃ next, getNextPeerState state = .ok next ∧ next.isConnected = false ∧ next.tries = state.tries := by
  cases state with
  | connected1 => exact ⟨_, rfl, rfl, rfl⟩
  | connected2 => exact ⟨_, rfl, rfl, rfl⟩
  | _ => exact absurd h (by decide)

/-- a connectable address can be tried once more -/
theorem next_of_connectable {state : PeerState} (h : state.Connectable) :
    ∃ next, getNextPeerState state = .ok next ∧ next.isConnected = true ∧ next.tries = state.tries + 1 := by
  rcases h with rfl | rfl
  · exact ⟨_, rfl, rfl, rfl⟩
  · exact ⟨_, rfl, rfl, rfl⟩

theorem Connectable.not_isConnected {state : PeerState} (h : state.Connectable) : state.isConnected = false := by
  rcases h with rfl | rfl <;> rfl

/-- neither connected nor connectable -/
theorem eq_disconnected2 {state : PeerState} (h : state.isConnected = false) (hc : ¬ state.Connectable) :
    state = .disconnected2 := by
  cases state with
  | disconnected2 => rfl
  | connected1 => cases h
  | connected2 => cases h
  | notConnected => exact absurd (Or.inl rfl) hc
  | disconnected1 => exact absurd (Or.inr rfl) hc

end PeerState

namespace PeerManager

variable {peerIps : List PeerConnInfo} {s t : PeerManager} {live : List PeerHandle}

/-- the ids of a list of peers -/
def ids (live : List PeerHandle) : List ℕ := live.map (·.peerNumId)

@[simp] theorem ids_append (a b : List PeerHandle) : ids (a ++ b) = ids a ++ ids b := List.map_append

@[simp] theorem ids_cons (p : PeerHandle) (live : List PeerHandle) : ids (p :: live) = p.peerNumId :: ids live := rfl

@[simp] theorem ids_nil : ids [] = [] := rfl

/-! ## The books -/

structure Books (peerIps : List PeerConnInfo) (s : PeerManager) (live : List PeerHandle) : Prop where
  ips : s.peerIps = peerIps
  size : s.peersState.length = peerIps.length
  known : ∀ i ∈ ids live, i < peerIps.length
  connected : ∀ i state, s.peersState[i]? = some state → (ids live).count i = if state.isConnected then 1 else 0
  tried : ∀ i state, s.peersState[i]? = some state → s.created.count i = state.tries
  created : ∀ i ∈ s.created, i < peerIps.length

theorem Books.perm {live' : List PeerHandle} (h : Books peerIps s live) (hp : live.Perm live') :
    Books peerIps s live' := by
  have hids : (ids live).Perm (ids live') := hp.map _
  refine { h with known := ?_, connected := ?_ }
  · intro i hi
    exact h.known i (hids.mem_iff.2 hi)
  · intro i state hi
    rw [← hids.count_eq]
    exact h.connected i state hi

/-- the state of an address -/
theorem Books.state (h : Books peerIps s live) {i : ℕ} (hi : i < peerIps.length) :
    ∃ state, s.peersState[i]? = some state :=
  ⟨_, List.getElem?_eq_getElem (h.size ▸ hi)⟩

/-- one address changes its state -/
theorem Books.update {x : ℕ} {state next : PeerState} (h : Books peerIps s live) (hx : s.peersState[x]? = some state)
    {peers live' : List PeerHandle} {created removed : List ℕ} (hknown : ∀ i ∈ ids live', i < peerIps.length)
    (hlive : ∀ i, (ids live').count i = if i = x then (if next.isConnected then 1 else 0) else (ids live).count i)
    (hcreated : ∀ i, created.count i = if i = x then next.tries else s.created.count i) :
    Books peerIps ⟨peers, s.peersState.set x next, s.peerIps, created, removed⟩ live' := by
  refine ⟨h.ips, by rw [List.length_set, h.size], hknown, ?_, ?_, ?_⟩
  · intro i state' hi
    rw [hlive]
    rcases getElem?_set_eq_some hi with ⟨hix, rfl⟩ | ⟨hix, hi⟩
    · rw [if_pos hix]
    · rw [if_neg hix, h.connected i state' hi]
  · intro i state' hi
    rw [hcreated]
    rcases getElem?_set_eq_some hi with ⟨hix, rfl⟩ | ⟨hix, hi⟩
    · rw [if_pos hix]
    · rw [if_neg hix, h.tried i state' hi]
  · intro i hi
    by_cases hix : i = x
    · rw [hix, ← h.size]
      exact (List.getElem?_eq_some_iff.1 hx).1
    · apply h.created
      rw [← List.count_pos_iff] at hi ⊢
      rwa [hcreated, if_neg hix] at hi

/-! ## Dropping peers -/

/-- an exited peer is taken out of the books -/
theorem Books.drop {p : PeerHandle} (h : Books peerIps s (p :: live)) : ∃ state next,
    s.peersState[p.peerNumId]? = some state ∧ getNextPeerState state = .ok next ∧
      Books peerIps { s with
        removed := s.removed ++ [p.peerNumId], peersState := s.peersState.set p.peerNumId next } live := by
  obtain ⟨state, hstate⟩ := h.state (h.known p.peerNumId List.mem_cons_self)
  have hcount := h.connected _ state hstate
  rw [ids_cons, List.count_cons_self] at hcount
  have hconn : state.isConnected = true := by
    by_contra hno
    rw [if_neg hno] at hcount
    omega
  rw [if_pos hconn] at hcount
  obtain ⟨next, hnext, hdisc, htries⟩ := PeerState.next_of_isConnected hconn
  refine ⟨state, next, hstate, hnext, h.update hstate ?_ ?_ ?_⟩
  · intro i hi
    exact h.known i (List.mem_cons_of_mem _ hi)
  · intro i
    by_cases hi : i = p.peerNumId
    · rw [if_pos hi, hdisc, hi]
      simp only [Bool.false_eq_true, if_false]
      omega
    · rw [if_neg hi, ids_cons, List.count_cons_of_ne (Ne.symm hi)]
  · intro i
    by_cases hi : i = p.peerNumId
    · rw [if_pos hi, hi, htries, h.tried _ state hstate]
    · rw [if_neg hi]

theorem dropPeers_books {dropped : List PeerHandle} (h : Books peerIps s (dropped ++ live)) :
    ∃ t, s.dropPeers dropped = .ok t ∧ Books peerIps t live ∧ t.removed = s.removed ++ ids dropped := by
  induction dropped generalizing s with
  | nil => exact ⟨s, rfl, h, by simp⟩
  | cons p dropped ih =>
    obtain ⟨state, next, hstate, hnext, hbooks⟩ := h.drop
    obtain ⟨t, ht, hlive, hremoved⟩ := ih hbooks
    refine ⟨t, ?_, hlive, ?_⟩
    · simp only [dropPeers, access_ok.2 (vecAt_eq_ok.2 hstate), hnext, ok_bind]
      exact ht
    · rw [hremoved, ids_cons, List.append_assoc, List.singleton_append]

/-- the books do not mention `peers_` -/
theorem Books.putPeers (h : Books peerIps s live) (peers : List PeerHandle) :
    Books peerIps { s with peers := peers } live := { h with }

/-- **`cleanup_connections`** keeps the other peers, and hands `remove_peer` the ids of those it drops. -/
theorem cleanupConnections_books {kept dropped : List PeerHandle} (h : Books peerIps s s.peers)
    (hp : (kept ++ dropped).Perm s.peers) : ∃ t, s.cleanupConnections kept dropped = .ok t ∧ Books peerIps t t.peers ∧
      t.peers = kept ∧ t.removed = s.removed ++ ids dropped := by
  obtain ⟨t, ht, hbooks, hremoved⟩ := dropPeers_books (h.perm (hp.symm.trans List.perm_append_comm))
  refine ⟨{ t with peers := kept }, ?_, hbooks.putPeers kept, rfl, hremoved⟩
  rw [cleanupConnections, if_pos (List.isPerm_iff.2 hp), ht, ok_bind, pure_eq_ok]

/-! ## Opening connections -/

/-- an address is tried -/
theorem Books.connect {i : ℕ} {state : PeerState} (h : Books peerIps s live) (info : PeerConnInfo) (next : PeerState)
    (hn : peerIps.length ≤ 2 ^ 32) (hi : s.peersState[i]? = some state) (hno : state.isConnected = false)
    (hconn : next.isConnected = true) (htries : next.tries = state.tries + 1) :
    Books peerIps (s.addPeer i info next) (live ++ [⟨i % 2 ^ 32, info⟩]) := by
  have hlt : i < peerIps.length := h.size ▸ (List.getElem?_eq_some_iff.1 hi).1
  rw [Nat.mod_eq_of_lt (hlt.trans_le hn)]
  refine h.update hi ?_ ?_ ?_
  · intro j hj
    rcases List.mem_append.1 (ids_append _ _ ▸ hj) with hj | hj
    · exact h.known j hj
    · rwa [List.mem_singleton.1 hj]
  · intro j
    have hcount := h.connected i state hi
    rw [hno] at hcount
    by_cases hj : j = i
    · subst hj
      simpa [hconn] using hcount
    · simp [hj, Ne.symm hj]
  · intro j
    have hcount := h.tried i state hi
    by_cases hj : j = i
    · subst hj
      simp [htries, hcount]
    · simp [hj, Ne.symm hj]

/-- an address that can be tried is tried, if there is room for a peer -/
inductive Tries (s : PeerManager) : PeerManager → Prop where
  | intro {i : ℕ} {state next : PeerState} {info : PeerConnInfo} (hi : s.peersState[i]? = some state)
      (hc : state.Connectable) (hroom : s.peers.length < maxNumConnectedPeers) (hconn : next.isConnected = true)
      (htries : next.tries = state.tries + 1) : Tries s (s.addPeer i info next)

theorem Tries.books (ht : s.Tries t) (hn : peerIps.length ≤ 2 ^ 32) (h : Books peerIps s s.peers) :
    Books peerIps t t.peers := by
  cases ht with
  | intro hi hc hroom hconn htries => exact h.connect _ _ hn hi hc.not_isConnected hconn htries

theorem Tries.capacity (ht : s.Tries t) : t.peers.length ≤ maxNumConnectedPeers := by
  cases ht with
  | intro hi hc hroom hconn htries =>
    simp only [addPeer, List.length_append, List.length_singleton]
    exact hroom

/-- an address that cannot be tried keeps its state -/
theorem Tries.keep (ht : s.Tries t) {j : ℕ} {st : PeerState} (hj : s.peersState[j]? = some st)
    (hst : ¬ st.Connectable) :
    t.peersState[j]? = some st := by
  cases ht with
  | @intro i state next info hi hc hroom hconn htries =>
    have hne : i ≠ j := by
      intro hij
      rw [← hij, hi, Option.some.injEq] at hj
      exact hst (hj ▸ hc)
    exact (List.getElem?_set_ne hne).trans hj

/-- one turn of the loop of `open_connections` -/
theorem openPeers_cons {i : ℕ} {state : PeerState} (hstate : s.peersState[i]? = some state) (rest : List ℕ) :
    s.openPeers (i :: rest) = if state.Connectable then
      if maxNumConnectedPeers ≤ s.peers.length then .ok s
      else access (vecAt s.peerIps i) >>= fun info => getNextPeerState state >>= fun next =>
        (s.addPeer i info next).openPeers rest
    else s.openPeers rest := by
  simp only [openPeers, access_ok.2 (vecIdx_eq_ok.2 hstate), ok_bind]
  rfl

/-- **A turn of the loop** ends it with a full pool, or leaves the address in a state in which it cannot be tried. -/
theorem openPeers_cases {i : ℕ} {rest : List ℕ} (h : s.openPeers (i :: rest) = .ok t) :
    (maxNumConnectedPeers ≤ s.peers.length ∧ t = s) ∨ ∃ u, u.openPeers rest = .ok t ∧ (u = s ∨ s.Tries u) ∧
      ∃ st, u.peersState[i]? = some st ∧ ¬ st.Connectable := by
  have hstate : ∃ state, s.peersState[i]? = some state := by
    rw [openPeers, bind_eq_ok] at h
    obtain ⟨state, hstate, -⟩ := h
    exact ⟨state, vecIdx_eq_ok.1 (access_ok.1 hstate)⟩
  obtain ⟨state, hstate⟩ := hstate
  rw [openPeers_cons hstate] at h
  split_ifs at h with hc hfull
  · exact Or.inl ⟨hfull, (Except.ok.inj h).symm⟩
  · rw [bind_eq_ok] at h
    obtain ⟨info, -, h⟩ := h
    obtain ⟨next, hnext, hconn, htries⟩ := PeerState.next_of_connectable hc
    rw [hnext, ok_bind] at h
    have hset : (s.addPeer i info next).peersState[i]? = some next :=
      List.getElem?_set_self (List.getElem?_eq_some_iff.1 hstate).1
    refine Or.inr ⟨_, h, Or.inr (.intro hstate hc (Nat.lt_of_not_le hfull) hconn htries), next, hset, ?_⟩
    intro hnc
    rw [hnc.not_isConnected] at hconn
    cases hconn
  · exact Or.inr ⟨s, h, Or.inl rfl, state, hstate, hc⟩

/-- **What every try keeps, `open_connections` keeps.** -/
theorem openPeers_rule {P : PeerManager → Prop} {rest : List ℕ} (hstep : ∀ u v, u.Tries v → P u → P v) (hs : P s)
    (h : s.openPeers rest = .ok t) : P t := by
  induction rest generalizing s with
  | nil =>
    cases h
    exact hs
  | cons i rest ih =>
    rcases openPeers_cases h with ⟨-, rfl⟩ | ⟨u, hu, rfl | htry, -⟩
    · exact hs
    · exact ih hs hu
    · exact ih (hstep s u htry hs) hu

/-- the loop ends with a full pool, or with no address left that could be tried -/
theorem openPeers_end {rest : List ℕ} (h : s.openPeers rest = .ok t) : maxNumConnectedPeers ≤ t.peers.length ∨
    ∀ i ∈ rest, ∃ st, t.peersState[i]? = some st ∧ ¬ st.Connectable := by
  induction rest generalizing s with
  | nil => exact Or.inr (by simp)
  | cons i rest ih =>
    rcases openPeers_cases h with ⟨hfull, rfl⟩ | ⟨u, hu, -, st, hst, hnc⟩
    · exact Or.inl hfull
    · refine (ih hu).imp_right fun hnone j hj => ?_
      rcases List.mem_cons.1 hj with rfl | hj
      · have hkept := openPeers_rule (P := fun v => v.peersState[j]? = some st)
          (fun v w hvw hv => hvw.keep hv hnc) hst hu
        exact ⟨st, hkept, hnc⟩
      · exact hnone j hj

theorem openPeers_total (hn : peerIps.length ≤ 2 ^ 32) {rest : List ℕ} (h : Books peerIps s s.peers)
    (hrest : ∀ i ∈ rest, i < peerIps.length) : ∃ t, s.openPeers rest = .ok t := by
  induction rest generalizing s with
  | nil => exact ⟨s, rfl⟩
  | cons i rest ih =>
    have hi := hrest i List.mem_cons_self
    have hrest' : ∀ j ∈ rest, j < peerIps.length := fun j hj => hrest j (List.mem_cons_of_mem _ hj)
    obtain ⟨state, hstate⟩ := h.state hi
    rw [openPeers_cons hstate]
    split_ifs with hc hfull
    · exact ⟨s, rfl⟩
    · obtain ⟨next, hnext, hconn, htries⟩ := PeerState.next_of_connectable hc
      have hinfo : s.peerIps[i]? = some peerIps[i] := by rw [h.ips, List.getElem?_eq_getElem hi]
      rw [access_ok.2 (vecAt_eq_ok.2 hinfo), hnext]
      exact ih (h.connect _ next hn hstate hc.not_isConnected hconn htries) hrest'
    · exact ih h hrest'

/-- **`open_connections`** leaves no peer only if every address has been tried twice. -/
theorem openConnections_books (hn : peerIps.length ≤ 2 ^ 32) (h : Books peerIps s s.peers)
    (hcap : s.peers.length ≤ maxNumConnectedPeers) : ∃ t, s.openConnections = .ok t ∧ Books peerIps t t.peers ∧
      t.peers.length ≤ maxNumConnectedPeers ∧
      (t.peers = [] → ∀ i < peerIps.length, t.peersState[i]? = some .disconnected2) := by
  have hrest : ∀ i, i ∈ List.range s.peerIps.length ↔ i < peerIps.length := by
    intro i
    rw [List.mem_range, h.ips]
  obtain ⟨t, ht⟩ := openPeers_total hn h fun i hi => (hrest i).1 hi
  have hbooks := openPeers_rule (P := fun u => Books peerIps u u.peers) (fun u v htry => htry.books hn) h ht
  refine ⟨t, ht, hbooks, ?_, ?_⟩
  · exact openPeers_rule (P := fun u => u.peers.length ≤ maxNumConnectedPeers) (fun u v htry _ => htry.capacity) hcap ht
  · intro hempty i hi
    rcases openPeers_end ht with hfull | hnone
    · rw [hempty] at hfull
      exact absurd hfull (by decide)
    · obtain ⟨state, hstate, hnc⟩ := hnone i ((hrest i).2 hi)
      have hcount := hbooks.connected i state hstate
      rw [hempty, ids_nil, List.count_nil] at hcount
      have hno : state.isConnected = false := by
        rw [← Bool.not_eq_true]
        intro hconn
        rw [if_pos hconn] at hcount
        exact absurd hcount Nat.zero_ne_one
      rw [hstate, PeerState.eq_disconnected2 hno hnc]

/-- the loop of the constructor, when it has come to address `k` -/
theorem startPeers_books (hn : peerIps.length ≤ 2 ^ 32) {k m : ℕ} (h : Books peerIps s s.peers)
    (hk : s.peers.length = k) (hcap : k < maxNumConnectedPeers)
    (hfresh : ∀ i ∈ List.range' k m, s.peersState[i]? = some .notConnected) :
    ∃ t, s.startPeers (List.range' k m) = .ok t ∧ Books peerIps t t.peers ∧
      t.peers.length ≤ maxNumConnectedPeers := by
  induction m generalizing s k with
  | zero => exact ⟨s, rfl, h, by omega⟩
  | succ m ih =>
    rw [List.range'_succ] at hfresh ⊢
    have hstate := hfresh k List.mem_cons_self
    have hlt : k < peerIps.length := h.size ▸ (List.getElem?_eq_some_iff.1 hstate).1
    have hinfo : s.peerIps[k]? = some peerIps[k] := by rw [h.ips, List.getElem?_eq_getElem hlt]
    have hbooks := h.connect peerIps[k] .connected1 hn hstate rfl rfl rfl
    have hlen : (s.addPeer k peerIps[k] .connected1).peers.length = k + 1 := by
      simp only [addPeer, List.length_append, List.length_singleton, hk]
    simp only [startPeers, access_ok.2 (vecAt_eq_ok.2 hinfo), getNextPeerState, ok_bind]
    split_ifs with hlast
    · exact ⟨_, rfl, hbooks, by omega⟩
    · refine ih hbooks hlen (by omega) ?_
      intro i hi
      have hik : k ≠ i := by
        have := (List.mem_range'_1.1 hi).1
        omega
      exact (List.getElem?_set_ne hik).trans (hfresh i (List.mem_cons_of_mem _ hi))

theorem new_books (hn : peerIps.length ≤ 2 ^ 32) :
    ∃ s, new peerIps = .ok s ∧ Books peerIps s s.peers ∧ s.peers.length ≤ maxNumConnectedPeers := by
  rw [new, List.range_eq_range']
  refine startPeers_books hn ?_ rfl (by decide) ?_
  · refine ⟨rfl, List.length_replicate, by simp, ?_, ?_, by simp⟩
    · intro i state hi
      rw [List.eq_of_mem_replicate (List.mem_of_getElem? hi)]
      rfl
    · intro i state hi
      rw [List.eq_of_mem_replicate (List.mem_of_getElem? hi)]
      rfl
  · intro i hi
    have hlt := (List.mem_range'_1.1 hi).2
    rw [List.getElem?_replicate, if_pos (by omega)]

/-! ## Runs -/

/-- one `Peer` for every connected address, and none with another id -/
theorem Books.count_ids (h : Books peerIps s live) (i : ℕ) :
    (ids live).count i = if s.peersState[i]?.any (·.isConnected) then 1 else 0 := by
  cases hi : s.peersState[i]? with
  | some state => exact h.connected i state hi
  | none =>
    have hlen := List.getElem?_eq_none_iff.1 hi
    rw [h.size] at hlen
    exact List.count_eq_zero_of_not_mem fun hmem => absurd (h.known i hmem) (Nat.not_lt.2 hlen)

theorem Books.count_created (h : Books peerIps s live) (i : ℕ) : s.created.count i ≤ 2 := by
  by_cases hi : i < peerIps.length
  · obtain ⟨state, hstate⟩ := h.state hi
    rw [h.tried i state hstate]
    exact state.tries_le
  · rw [List.count_eq_zero_of_not_mem fun hmem => hi (h.created i hmem)]
    exact Nat.zero_le 2

theorem step_books (hn : peerIps.length ≤ 2 ^ 32) (h : Books peerIps s s.peers)
    (hcap : s.peers.length ≤ maxNumConnectedPeers) (o : Op) : ∃ t, s.step o = .ok t ∧ Books peerIps t t.peers ∧
      t.peers.length ≤ maxNumConnectedPeers := by
  cases o with
  | open_ =>
    obtain ⟨t, ht, hbooks, htcap, -⟩ := openConnections_books hn h hcap
    exact ⟨t, ht, hbooks, htcap⟩
  | cleanup kept dropped =>
    by_cases hp : (kept ++ dropped).Perm s.peers
    · obtain ⟨t, ht, hbooks, hkept, -⟩ := cleanupConnections_books h hp
      refine ⟨t, ht, hbooks, ?_⟩
      have hlen := hp.length_eq
      rw [List.length_append] at hlen
      rw [hkept]
      omega
    · refine ⟨s, ?_, h, hcap⟩
      rw [step, cleanupConnections, if_neg (by rwa [List.isPerm_iff])]

/-- what holds of any number of addresses -/
structure Counted (n : ℕ) (s : PeerManager) : Prop where
  size : s.peersState.length = n
  small : ∀ i ∈ ids s.peers, i < 2 ^ 32
  total : s.created.length = s.removed.length + s.peers.length
  created : ∀ i ∈ s.created, i < n

theorem Counted.addPeer {n i : ℕ} {info : PeerConnInfo} {next : PeerState} (h : Counted n s) (hi : i < n) :
    Counted n (s.addPeer i info next) := by
  refine ⟨List.length_set.trans h.size, ?_, ?_, ?_⟩
  · intro j hj
    rcases List.mem_append.1 (ids_append _ _ ▸ hj) with hj | hj
    · exact h.small j hj
    · rw [List.mem_singleton.1 hj]
      exact Nat.mod_lt _ (by decide)
  · have htotal := h.total
    simp only [PeerManager.addPeer, List.length_append, List.length_singleton]
    omega
  · intro j hj
    rcases List.mem_append.1 hj with hj | hj
    · exact h.created j hj
    · rwa [List.mem_singleton.1 hj]

theorem run_snoc (peerIps : List PeerConnInfo) (ops : List Op) (o : Op) :
    run peerIps (ops ++ [o]) = run peerIps ops >>= fun s => step s o := by
  simp only [run, runM_snoc]
  cases new peerIps <;> rfl

/-- what was tried in the meantime is connected -/
def NewConnected (old : List ℕ) (s : PeerManager) : Prop :=
  ∀ i ∈ s.created, i ∈ old ∨ s.peersState[i]?.any (·.isConnected) = true

theorem NewConnected.addPeer {old : List ℕ} {i : ℕ} {info : PeerConnInfo} {next : PeerState} (h : NewConnected old s)
    (hi : i < s.peersState.length) (hconn : next.isConnected = true) : NewConnected old (s.addPeer i info next) := by
  intro j hj
  by_cases hji : j = i
  · subst hji
    exact Or.inr (by simp [PeerManager.addPeer, List.getElem?_set_self hi, hconn])
  · rcases List.mem_append.1 hj with hj | hj
    · exact (h j hj).imp_right fun hst => by simpa [PeerManager.addPeer, List.getElem?_set_ne (Ne.symm hji)] using hst
    · exact absurd (List.mem_singleton.1 hj) hji

end PeerManager

end SimpleTorrent
