/-
A peer that answers.

The remote behind one object sends whole messages, and answers what it is asked. No other object takes a step.

- `Lives.step_header`, `Lives.step_type`, `Lives.step_payload`: the three reads of a message.
- `Attends`: an object is between two messages. `Attends.message`: it reads one and handles it.
- `Serves`: it is unchoked, its bitfield has every piece, and no request is counted.
- `At`: where an object is, in a client that is ready. `At.turn`: it asks for a block and gets it, and less is left to
  do. `At.completes`: turn by turn, every piece is completed.
-/
import SimpleTorrent.Client.Runs
import SimpleTorrent.Properties.RoundTrip
import SimpleTorrent.Properties.Seed

namespace SimpleTorrent

open Checked Store MessageUtil

namespace Routines

variable {r : Routines}

/-- `handle_message` does not look where the coroutine is -/
theorem handleMessage_main (r : Routines) (next : MainRoutine) (type : UInt8) (n : ℕ) :
    { r with main := next }.handleMessage type n = { r.handleMessage type n with main := next } := by
  unfold handleMessage
  split
  · rfl
  · rfl
  · split_ifs <;> rfl
  · rfl

theorem handleMessage_keeps (r : Routines) (type : UInt8) (n : ℕ) :
    (r.handleMessage type n).main = r.main ∧ (r.handleMessage type n).continueConnection = r.continueConnection := by
  unfold handleMessage
  split
  · exact ⟨rfl, rfl⟩
  · exact ⟨rfl, rfl⟩
  · split_ifs <;> exact ⟨rfl, rfl⟩
  · exact ⟨rfl, rfl⟩

/-- between two messages, with `send_messages` running -/
structure Attends (r : Routines) : Prop where
  main : r.main = .header
  continueConnection : r.continueConnection = true
  spawned : r.spawned = .spawned ∨ r.spawned = .write ∨ r.spawned = .timer

theorem Attends.handleMessage (h : r.Attends) (type : UInt8) (n : ℕ) : (r.handleMessage type n).Attends := by
  obtain ⟨hmain, hcontinue⟩ := r.handleMessage_keeps type n
  exact ⟨hmain.trans h.main, hcontinue.trans h.continueConnection, by
    rw [(r.handleMessage_frame type n).2.1]
    exact h.spawned⟩

/-- what the counter is, once the request that is being written is counted -/
def counted (r : Routines) : UInt8 := if r.spawned = .write then r.numInFlight + 1 else r.numInFlight

/-- not choked, and with no request counted -/
structure Serves (r : Routines) : Prop where
  attends : r.Attends
  isChoked : r.isChoked = false
  counted : r.counted = 0

theorem Serves.selects (h : r.Serves) : r.selects false = true := by
  have hcounted := h.counted
  rw [Routines.counted] at hcounted
  rcases h.attends.spawned with hs | hs | hs
  · simp_all [Routines.selects, h.attends.continueConnection, h.isChoked, Peer.maxInFlight]
  · simp_all [Routines.selects, Peer.maxInFlight]
  · simp_all [Routines.selects, h.attends.continueConnection, h.isChoked, Peer.maxInFlight]

/-- the coroutine asks for a block, and gets a request or nothing -/
theorem Serves.resumeSpawned (h : r.Serves) (some : Bool) :
    r.resumeSpawned ⟨false, if some then .request else .none⟩ =
      { r with numInFlight := 0, spawned := if some then .write else .timer } := by
  have hcounted := h.counted
  have hzero : (0 : UInt8).toNat < Peer.maxInFlight := by decide
  rw [Routines.counted] at hcounted
  rcases h.attends.spawned with hs | hs | hs <;> cases some <;>
    simp_all [Routines.resumeSpawned, sendMessages, sendBlockRequests, h.attends.continueConnection, h.isChoked]

theorem Serves.idle (h : r.Serves) : Serves { r with numInFlight := 0, spawned := .timer } :=
  ⟨⟨h.attends.main, h.attends.continueConnection, Or.inr (Or.inr rfl)⟩, h.isChoked, rfl⟩

/-- the answer arrives before the write has ended -/
theorem Serves.answered (h : r.Serves) {n : ℕ} (hn : 9 ≤ n) :
    Serves ({ r with numInFlight := 0, spawned := .write }.handleMessage 7 n) := by
  have hpiece : { r with numInFlight := 0, spawned := .write }.handleMessage 7 n =
      { r with numInFlight := 255, spawned := .write } := by
    simp only [handleMessage, show messageType 7 = .piece from rfl, if_neg (Nat.not_lt.2 hn)]
    rfl
  have hwrap : (255 : UInt8) + 1 = 0 := by decide
  rw [hpiece]
  exact ⟨⟨h.attends.main, h.attends.continueConnection, Or.inr (Or.inl rfl)⟩, h.isChoked, by
    rw [Routines.counted, if_pos rfl, hwrap]⟩

end Routines

namespace Client

variable {fs : FileSystem} {c : Config} {peerIps : List PeerConnInfo} {sha1 : Bytes → Bytes} {hello : Bytes}
  {s t u : Client} {i : ℕ} {p : PeerObject}

/-! ## The steps of one object -/

/-- a step of object `i`, of the pool or of the writer -/
def Op.Alone (i : ℕ) : Op → Prop
  | .main j _ => j = i
  | .spawned j _ _ => j = i
  | .timeout _ => False
  | .poolLoop _ | .returned | .writer => True

/-- the object in place `i`, while the network thread runs -/
structure Lives (i : ℕ) (p : PeerObject) (s : Client) : Prop where
  live : s.poolLoop ≠ .ended
  object : s.objects[i]? = some p

theorem Lives.onObject (h : s.Lives i p) (f : PeerObject → Except PoolFault Client) : s.onObject i f = f p := by
  simp only [Client.onObject, if_neg h.live, h.object]

theorem Lives.put (h : s.Lives i p) (p' : PeerObject) : (s.putObject i p').Lives i p' :=
  ⟨h.live, List.getElem?_set_self (List.getElem?_eq_some_iff.1 h.object).1⟩

/-- the manager is called in between -/
theorem Lives.calls (h : s.Lives i p) (hcalls : Calls c sha1 s t) : t.Lives i p := by
  rw [hcalls.frame]
  exact ⟨h.live, h.object⟩

/-- a read of exactly what was asked for -/
theorem fill_exact {o : Completion} {buffer : Bytes} (h : o.data.length = buffer.length) : o.fill buffer = o.data := by
  rw [Completion.fill, ← h, List.take_length]
  simp [Splice.splice, h]

/-- what a remote sends -/
def receives (i : ℕ) (data : Bytes) : Op := .main i ⟨false, data, []⟩

theorem Lives.step_header (h : s.Lives i p) (hmain : p.routines.main = .header) (hlen : p.header.length = 4) {n : ℕ}
    (hn : n < 2 ^ 32) (hpos : n ≠ 0) : step sha1 s (receives i (writeUint32 n)) =
      .ok (s.putObject i { p with routines := { p.routines with main := .type n }, header := writeUint32 n }) := by
  have hfill : Completion.fill ⟨false, writeUint32 n, []⟩ p.header = writeUint32 n := fill_exact hlen.symm
  have hread : getHeaderLength (writeUint32 n) = n := by
    have := readUint32_writeUint32 hn []
    rwa [List.append_nil] at this
  rw [receives, step, h.onObject]
  simp only [resumeMain, hmain, hfill, hread, Routines.resumeMain, if_neg hpos, Bool.false_eq_true, if_false]

theorem Lives.step_type (h : s.Lives i p) {n : ℕ} (hmain : p.routines.main = .type n) (type : UInt8) :
    step sha1 s (receives i [type]) =
      .ok (s.putObject i { p with routines := { p.routines with main := .payload n type } }) := by
  have hfill : Completion.fill ⟨false, [type], []⟩ (Completion.uninitialised ⟨false, [type], []⟩ 1) = [type] :=
    fill_exact rfl
  rw [receives, step, h.onObject]
  simp only [resumeMain, hmain, hfill, Routines.resumeMain, List.headD_cons, Bool.false_eq_true, if_false]

theorem Lives.step_payload (h : s.Lives i p) {n : ℕ} {type : UInt8} (hmain : p.routines.main = .payload n type)
    (hcontinue : p.routines.continueConnection = true) {payload : Bytes} (hlen : payload.length = n - 1)
    (hu : s.handleMessage sha1 p.handle.peerNumId type payload = .ok (false, u)) :
    step sha1 s (receives i payload) = .ok (u.putObject i { p with
      routines := { p.routines.handleMessage type payload.length with main := .header } }) := by
  have hfill : Completion.fill ⟨false, payload, []⟩ (List.replicate (n - 1) 0) = payload :=
    fill_exact (hlen.trans List.length_replicate.symm)
  have hkeep := (p.routines.handleMessage_keeps type (n - 1)).2.trans hcontinue
  rw [receives, step, h.onObject]
  simp only [resumeMain, hmain, hfill, hu, ok_bind, pure_eq_ok, Routines.resumeMain, Routines.receiveMessages, hkeep,
    hlen, Bool.false_eq_true, if_false, if_true]

/-! ## Messages -/

/-- object `i` has the id `id`, and its coroutines are where `r` says -/
structure At (fs : FileSystem) (c : Config) (peerIps : List PeerConnInfo) (sha1 : Bytes → Bytes) (hello : Bytes)
    (i id : ℕ) (r : Routines) (s : Client) : Prop where
  ready : s.Ready fs c peerIps sha1 hello
  stopDownload : s.session.stopDownload = false
  infoHash : s.infoHash = c.data.infoHash
  object : ∃ p, s.Lives i p ∧ p.handle.peerNumId = id ∧ p.routines = r ∧ Sized p

variable {id : ℕ} {r r' : Routines}

theorem At.mem_ids (h : s.At fs c peerIps sha1 hello i id r) : id ∈ PeerManager.ids s.pool.peers := by
  obtain ⟨p, hp, rfl, -⟩ := h.object
  exact h.ready.parts.mem_ids (List.mem_of_getElem? hp.object)

section Run

variable (hc : c.data.Consistent) (hsmall : min c.bufferSize.toNat c.numPieces < 2 ^ 31) (hn : peerIps.length ≤ 2 ^ 32)
include hc hsmall hn

theorem Ready.stepped (h : s.Ready fs c peerIps sha1 hello) {o : Op} (hst : step sha1 s o = .ok t) :
    t.Ready fs c peerIps sha1 hello ∧ t.infoHash = s.infoHash := by
  obtain ⟨t', ht', hparts, heffect⟩ := step_effect h hc hsmall hn o
  obtain rfl : t' = t := Except.ok.inj (ht'.symm.trans hst)
  exact ⟨h.effect hparts heffect, heffect.constants.2.1⟩

/-- **A step that leaves the piece manager to `u`** -/
theorem At.next (h : s.At fs c peerIps sha1 hello i id r) (r' : Routines) {o : Op} (ho : o.Alone i)
    (hcalls : Calls c sha1 s u) (hst : ∀ p, s.Lives i p → p.handle.peerNumId = id → p.routines = r → Sized p → ∃ p',
      Client.step sha1 s o = .ok (u.putObject i p') ∧ p'.handle = p.handle ∧ p'.routines = r' ∧ Sized p') :
    ∃ t, Reaches (Client.step sha1) (Op.Alone i) s t ∧ t.At fs c peerIps sha1 hello i id r' ∧
      t.pieceManager = u.pieceManager := by
  obtain ⟨p, hp, hid, hr, hlen⟩ := h.object
  obtain ⟨p', hstep, hhandle, hr', hlen'⟩ := hst p hp hid hr hlen
  obtain ⟨hready, hinfo⟩ := h.ready.stepped hc hsmall hn hstep
  exact ⟨_, .single ho hstep, ⟨hready, hcalls.stopDownload.trans h.stopDownload, hinfo.trans h.infoHash,
    p', (hp.calls hcalls).put p', by rw [hhandle, hid], hr', hlen'⟩, rfl⟩

/-- what is left of a message whose type has come -/
theorem At.payload (h : s.At fs c peerIps sha1 hello i id r) {n : ℕ} {type : UInt8} (hmain : r.main = .payload n type)
    (hcontinue : r.continueConnection = true) {payload : Bytes} (hlen : payload.length = n - 1)
    (hu : s.handleMessage sha1 id type payload = .ok (false, u)) (hcalls : Calls c sha1 s u) :
    ∃ t, Reaches (Client.step sha1) (Op.Alone i) s t ∧
      t.At fs c peerIps sha1 hello i id { r.handleMessage type payload.length with main := .header } ∧
      t.pieceManager = u.pieceManager := by
  refine h.next hc hsmall hn _ (o := receives i payload) rfl hcalls fun p hp hid hr hheader => ?_
  subst hid hr
  exact ⟨_, hp.step_payload hmain hcontinue hlen hu, rfl, rfl, fun _ => hheader (by rw [hmain]; rfl)⟩

/-- the type of a message comes -/
theorem At.type (h : s.At fs c peerIps sha1 hello i id r) {n : ℕ} (hmain : r.main = .type n) (type : UInt8) :
    ∃ t, Reaches (Client.step sha1) (Op.Alone i) s t ∧
      t.At fs c peerIps sha1 hello i id { r with main := .payload n type } ∧ t.pieceManager = s.pieceManager := by
  refine h.next hc hsmall hn _ (o := receives i [type]) rfl h.ready.parts.calls_refl fun p hp hid hr hheader => ?_
  subst hr
  exact ⟨_, hp.step_type hmain type, rfl, rfl, fun _ => hheader (by rw [hmain]; rfl)⟩

/-- **A message is read**, and handled by the piece manager of the state in which its last byte arrives. -/
theorem At.message (h : s.At fs c peerIps sha1 hello i id r) (hr : r.Attends) (type : UInt8) (payload : Bytes)
    (hshort : payload.length + 1 < 2 ^ 32) {Q : PieceManager → Prop}
    (hhandle : ∀ u : Client, u.Ready fs c peerIps sha1 hello → id ∈ PeerManager.ids u.pool.peers →
      u.pieceManager = s.pieceManager → ∃ v, u.handleMessage sha1 id type payload = .ok (false, v) ∧
        Calls c sha1 u v ∧ Q v.pieceManager) :
    ∃ t, Reaches (Client.step sha1) (Op.Alone i) s t ∧
      t.At fs c peerIps sha1 hello i id (r.handleMessage type payload.length) ∧ Q t.pieceManager := by
  obtain ⟨s₁, hs₁, hat₁, hm₁⟩ := h.next hc hsmall hn { r with main := .type (payload.length + 1) }
    (o := receives i (writeUint32 (payload.length + 1))) rfl h.ready.parts.calls_refl fun p hp hid hr' hheader => by
      subst hr'
      exact ⟨_, hp.step_header hr.main (hheader (by rw [hr.main]; rfl)) hshort (Nat.succ_ne_zero _), rfl, rfl,
        fun _ => length_writeUint32 _⟩
  obtain ⟨s₂, hs₂, hat₂, hm₂⟩ := hat₁.type hc hsmall hn rfl type
  obtain ⟨v, hv, hcalls, hQ⟩ := hhandle s₂ hat₂.ready hat₂.mem_ids (hm₂.trans hm₁)
  obtain ⟨t, ht, hat, hm⟩ := hat₂.payload hc hsmall hn rfl hr.continueConnection rfl hv hcalls
  have hsame : { ({ r with main := .payload (payload.length + 1) type } : Routines).handleMessage type payload.length
      with main := .header } = r.handleMessage type payload.length := by
    rw [Routines.handleMessage_main, ← (r.handleMessage_keeps type payload.length).1.trans hr.main]
  exact ⟨t, (hs₁.trans hs₂).trans ht, hsame ▸ hat, hm ▸ hQ⟩

/-- a bitfield with a bit set -/
theorem At.bitfield (h : s.At fs c peerIps sha1 hello i id r) (hr : r.Attends) (payload : Bytes)
    (hshort : payload.length + 1 < 2 ^ 32)
    (hbits : ¬ (getPeerBitfield payload (PieceManager.bitfieldLength c)).all (· == 0) = true) :
    ∃ t, Reaches (Client.step sha1) (Op.Alone i) s t ∧
      t.At fs c peerIps sha1 hello i id (r.handleMessage 5 payload.length) ∧ t.pieceManager =
        s.pieceManager.updatePieceFrequencies (getPeerBitfield payload (PieceManager.bitfieldLength c)) id := by
  refine h.message hc hsmall hn hr 5 payload hshort (Q := fun m => m =
    s.pieceManager.updatePieceFrequencies (getPeerBitfield payload (PieceManager.bitfieldLength c)) id) ?_
  intro u hu hid hm
  rw [← hu.numPieces] at hbits ⊢
  obtain ⟨v, hv, -, hcalls, hmanager⟩ := handleMessage_bitfield hu hc hid (show messageType 5 = .bitfield from rfl) hbits
  exact ⟨v, hv, hcalls, hm ▸ hmanager⟩

/-- a block -/
theorem At.piece (h : s.At fs c peerIps sha1 hello i id r) (hr : r.Attends) {payload : Bytes} {block : Block}
    (hshort : payload.length + 1 < 2 ^ 32) (hblock : pieceBlock payload = some block) :
    ∃ t, Reaches (Client.step sha1) (Op.Alone i) s t ∧
      t.At fs c peerIps sha1 hello i id (r.handleMessage 7 payload.length) ∧
      s.pieceManager.addBlock sha1 id block = .ok t.pieceManager := by
  refine h.message hc hsmall hn hr 7 payload hshort (Q := fun m => s.pieceManager.addBlock sha1 id block = .ok m) ?_
  intro u hu hid hm
  obtain ⟨v, hv, -, hcalls, hmanager⟩ := handleMessage_piece hu hc id (show messageType 7 = .piece from rfl) hblock
  exact ⟨v, hv, hcalls, hm ▸ hmanager⟩

/-- Unchoke -/
theorem At.unchoke (h : s.At fs c peerIps sha1 hello i id r) (hr : r.Attends) :
    ∃ t, Reaches (Client.step sha1) (Op.Alone i) s t ∧ t.At fs c peerIps sha1 hello i id { r with isChoked := false } ∧
      t.pieceManager = s.pieceManager := by
  refine h.message hc hsmall hn hr 1 [] (by decide) (Q := fun m => m = s.pieceManager) ?_
  exact fun u hu hid hm => ⟨u, rfl, hu.parts.calls_refl, hm⟩

/-- **The object asks for a block.** -/
theorem At.ask (h : s.At fs c peerIps sha1 hello i id r) (hsel : r.selects false = true) :
    ∃ request t, Reaches (Client.step sha1) (Op.Alone i) s t ∧
      t.At fs c peerIps sha1 hello i id
        (r.resumeSpawned ⟨false, if request.isSome then .request else .none⟩) ∧
      s.pieceManager.selectNextBlock id [] = .ok (request, t.pieceManager) := by
  obtain ⟨request, u, hm, hput, -, hcalls⟩ := select_call h.ready hc hsmall id []
  obtain ⟨t, ht, hat, hmanager⟩ := h.next hc hsmall hn
    (r.resumeSpawned ⟨false, if request.isSome then .request else .none⟩) (o := .spawned i false []) rfl hcalls
    fun p hp hid hr hheader => by
      subst hid hr
      refine ⟨{ p with
        routines := p.routines.resumeSpawned ⟨false, if request.isSome then .request else .none⟩
        sent := p.sent ++ (request.map constructRequestMessage).toList }, ?_, rfl, rfl, fun ht => hheader ?_⟩
      · rw [step, hp.onObject, resumeSpawned, if_pos hsel, access_ok.2 hm, ok_bind]
        simp only [hput, ok_bind, pure_eq_ok]
      · rwa [(Routines.resumeSpawned_main p.routines _).1] at ht
  exact ⟨request, t, ht, hat, hmanager ▸ hm⟩

/-! ## Turns -/

/-- **One turn**: the object asks for a block, and is given it; or it comes back empty-handed. -/
theorem At.turn {T : ℕ → Bytes} (hT : PieceManager.Content c sha1 T) (hbuf : 0 < c.bufferSize.toNat)
    (hshort : c.layout.blockLength < 2 ^ 31) (h : s.At fs c peerIps sha1 hello i id r) (hr : r.Serves)
    (hseeded : PieceManager.Seeded c sha1 id s.pieceManager) (hopen : ¬ s.pieceManager.AllCompleted c) :
    ∃ r' t, Reaches (Client.step sha1) (Op.Alone i) s t ∧ t.At fs c peerIps sha1 hello i id r' ∧ r'.Serves ∧
      PieceManager.Seeded c sha1 id t.pieceManager ∧ t.pieceManager.left c T < s.pieceManager.left c T := by
  obtain ⟨x, hx, hst⟩ : ∃ x < c.numPieces, s.pieceManager.toStore.state x ≠ some .completed := by
    by_contra hall
    push Not at hall
    exact hopen hall
  obtain ⟨request, u, hu, hat, hselect⟩ := h.ask hc hsmall hn hr.selects
  rw [hr.resumeSpawned] at hat
  have hasked : PieceManager.Seeded c sha1 id u.pieceManager := by
    have hfits : (PieceManager.Op.selectNextBlock id []).Fits c ∧ (PieceManager.Op.selectNextBlock id []).Spares id :=
      ⟨trivial, trivial⟩
    exact hseeded.step hfits (by rw [PieceManager.step, hselect]; rfl)
  cases request with
  | none =>
    refine ⟨_, u, hu, hat, hr.idle, hasked, ?_⟩
    exact PieceManager.turn_left hT hbuf hseeded hasked.inv hselect (.of_eq rfl rfl) rfl hx hst
  | some request =>
    obtain ⟨y, k, rfl, hy, hk, -, -⟩ := PieceManager.select_request hseeded.inv hselect
    have hlen : (T y).length = c.layout.len y := (hT y hy).1
    have hlt := c.layout.mul_lt_len hk
    have hsmallLen : c.layout.len y < 2 ^ 32 := Nat.mod_lt _ (by decide)
    have hblock := length_blockOf c.layout (k := k) hlen
    have hpos := c.layout.blockLength_pos
    have hnum := hseeded.numPieces_lt
    have hdata : pieceBlock (writeUint32 y ++ writeUint32 (k * c.layout.blockLength) ++ blockOf c.layout (T y) k) =
        some (PieceManager.answer T (c.request y k)) := by
      rw [PieceManager.answer_request hT hy hk]
      exact pieceBlock_words (by omega) (by omega) (List.ne_nil_of_length_pos (by omega))
    obtain ⟨t, ht, hat', hadd⟩ := hat.piece hc hsmall hn ⟨hr.attends.main, hr.attends.continueConnection,
      Or.inr (Or.inl rfl)⟩ (by simp only [List.length_append, length_writeUint32]; omega) hdata
    have hgive : (PieceManager.Op.addBlock id (PieceManager.answer T (c.request y k))).Fits c ∧
        (PieceManager.Op.addBlock id (PieceManager.answer T (c.request y k))).Spares id := ⟨trivial, trivial⟩
    refine ⟨_, t, hu.trans ht, hat', hr.answered ?_, hasked.step hgive hadd, ?_⟩
    · simp only [List.length_append, length_writeUint32]
      omega
    · exact PieceManager.turn_left hT hbuf hseeded hasked.inv hselect (.of_eq rfl rfl) hadd hx hst

end Run

end Client

end SimpleTorrent
