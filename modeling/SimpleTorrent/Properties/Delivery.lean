/-
What the receive loop hands to `handle_message`.

- `messages`: the complete messages of a byte stream; a frame without a body is a keep-alive.
- `OnTrack`: as long as no read has failed, the bytes received are the messages handled, followed by the part of the next
  one that has been read.
- `delivery_iff`: between two messages, exactly the messages received have been handled and no iteration has begun after
  a failure, if and only if no read has failed, or the first one to fail was a read of a header that left zeros in the
  buffer of the loop, when the connection had been given up. In all other cases the loop acts on bytes that nobody sent.
- `phantom_message`: after an Unchoke and the end of the stream, the Unchoke is handled twice.
-/
import SimpleTorrent.Core.Framing
import SimpleTorrent.Model.ReceiveLoop

namespace SimpleTorrent

open Framing Splice MessageUtil

/-! ## Messages of a stream -/

/-- type and payload of a frame that is not a keep-alive -/
def messageOf : Bytes → Option (UInt8 × Bytes)
  | [] => none
  | type :: payload => some (type, payload)

/-- the complete messages of a stream -/
def messages (stream : Bytes) : List (UInt8 × Bytes) := (frames 4 getHeaderLength stream).filterMap messageOf

theorem messages_of_short {stream : Bytes} (h : stream.length < 4) : messages stream = [] := by
  rw [messages, frames_of_short h]
  rfl

theorem messages_of_incomplete {header body : Bytes} (hh : header.length = 4) (hb : body.length < getHeaderLength header) :
    messages (header ++ body) = [] := by
  rw [messages, frames_of_incomplete hh hb]
  rfl

theorem messages_cons {header body : Bytes} (hh : header.length = 4) (hb : body.length = getHeaderLength header)
    (rest : Bytes) : messages (header ++ body ++ rest) = (messageOf body).toList ++ messages rest := by
  rw [messages, frames_cons (by decide) hh hb, messages]
  cases body with
  | nil => rfl
  | cons type payload => rfl

/-- `stream` consists of whole frames, with these messages -/
def Consumed (stream : Bytes) (handled : List (UInt8 × Bytes)) : Prop :=
  ∀ rest, messages (stream ++ rest) = handled ++ messages rest

theorem consumed_nil : Consumed [] [] := fun _ => rfl

theorem Consumed.messages_eq {stream : Bytes} {handled : List (UInt8 × Bytes)} (h : Consumed stream handled) :
    messages stream = handled := by
  have := h []
  rwa [List.append_nil, messages_of_short (by decide : ([] : Bytes).length < 4), List.append_nil] at this

/-- one more frame -/
theorem Consumed.append {stream header body : Bytes} {handled : List (UInt8 × Bytes)} (h : Consumed stream handled)
    (hh : header.length = 4) (hb : body.length = getHeaderLength header) :
    Consumed (stream ++ (header ++ body)) (handled ++ (messageOf body).toList) := by
  intro rest
  rw [List.append_assoc, h, messages_cons hh hb, List.append_assoc]

namespace Receiver

variable {s : Receiver} {o : Outcome}

/-! ## Reads -/

def Fails (s : Receiver) (o : Outcome) : Prop := o.data.length < s.wanted

instance (s : Receiver) (o : Outcome) : Decidable (s.Fails o) := by unfold Fails; infer_instance

@[simp] theorem read_header (size : ℕ) : (s.read size o).header = s.header := rfl

@[simp] theorem read_handled (size : ℕ) : (s.read size o).handled = s.handled := rfl

@[simp] theorem read_late (size : ℕ) : (s.read size o).late = s.late := rfl

/-- a read that does not fail overwrites the whole buffer -/
theorem fill_of_le {buffer : Bytes} (h : buffer.length ≤ o.data.length) : fill buffer o = o.data.take buffer.length := by
  have hlen : (o.data.take buffer.length).length = buffer.length := List.length_take_of_le h
  rw [fill, splice, hlen]
  simp

/-- the part of the next message that has been read -/
def part (s : Receiver) : Bytes :=
  match s.state with
  | .type _ => s.header
  | .payload _ messageType => s.header ++ [messageType]
  | _ => []

/-- the length that the header in the buffer announces, once it has been read -/
def Announced (s : Receiver) : Prop :=
  match s.state with
  | .type messageLength | .payload messageLength _ => getHeaderLength s.header = messageLength ∧ messageLength ≠ 0
  | _ => True

structure OnTrack (s : Receiver) : Prop where
  failed : s.failed = false
  late : s.late = false
  header : s.header.length = 4
  announced : s.Announced
  consumed : ∃ stream, s.received = stream ++ s.part ∧ Consumed stream s.handled

/-- between two messages, or at the end -/
def Settled (s : Receiver) : Prop := s.state = .header ∨ s.state = .exited

theorem not_settled_of_type {n : ℕ} (h : s.state = .type n) : ¬ s.Settled := by
  simp [Settled, h]

theorem not_settled_of_payload {n : ℕ} {type : UInt8} (h : s.state = .payload n type) : ¬ s.Settled := by
  simp [Settled, h]

/-- exactly the messages received have been handled, and no iteration began after a failure -/
def Delivered (s : Receiver) : Prop := s.handled = messages s.received ∧ s.late = false

theorem OnTrack.delivered (h : s.OnTrack) (hs : s.Settled) : s.Delivered := by
  obtain ⟨stream, hrec, hcons⟩ := h.consumed
  have hpart : s.part = [] := by
    rcases hs with hs | hs
    · simp only [part, hs]
    · simp only [part, hs]
  rw [hpart, List.append_nil] at hrec
  exact ⟨by rw [hrec, hcons.messages_eq], h.late⟩

/-- the loop's test keeps on track what is between two messages -/
theorem onTrack_test (hf : s.failed = false) (hl : s.late = false) (hh : s.header.length = 4)
    (hc : Consumed s.received s.handled) : s.test.OnTrack := by
  unfold test
  split
  · exact ⟨hf, by simp only [hl, hf, Bool.or_self], hh, trivial, s.received, (List.append_nil _).symm, hc⟩
  · exact ⟨hf, hl, hh, trivial, s.received, (List.append_nil _).symm, hc⟩

theorem init_onTrack (continueConnection : Bool) : (init continueConnection).OnTrack :=
  onTrack_test rfl rfl rfl consumed_nil

/-- a read that does not fail adds what it asked for -/
theorem OnTrack.reads (h : s.OnTrack) (ho : ¬ s.Fails o) :
    (s.read s.wanted o).received = s.received ++ o.data.take s.wanted ∧ (s.read s.wanted o).failed = false := by
  simp only [read, h.failed, Bool.false_eq_true, if_false, Bool.false_or, decide_eq_false_iff_not]
  exact ⟨trivial, ho⟩

/-- a header is read: a keep-alive is over, or a message begins -/
theorem OnTrack.stepHeader (h : s.OnTrack) (ho : ¬ s.Fails o) (hs : s.state = .header) : (s.step o).OnTrack := by
  have hh := h.header
  obtain ⟨stream, hrec, hcons⟩ := h.consumed
  obtain ⟨hrec', hf'⟩ := h.reads ho
  simp only [Fails, wanted, part, hs, List.append_nil, not_lt] at ho hrec hrec' hf'
  have hfill : fill s.header o = o.data.take 4 := by rw [fill_of_le (hh.le.trans ho), hh]
  have hlen : (o.data.take 4).length = 4 := List.length_take_of_le ho
  rw [step, hs]
  simp only [hfill]
  split
  · -- a keep-alive
    rename_i hzero
    refine onTrack_test hf' h.late hlen ?_
    have hnil : ([] : Bytes).length = getHeaderLength (o.data.take 4) := hzero.symm
    simpa only [List.append_nil, messageOf, Option.toList_none, hrec', hrec, read_handled] using hcons.append hlen hnil
  · rename_i hne
    exact ⟨hf', h.late, hlen, ⟨rfl, hne⟩, stream, by simp only [hrec', hrec, part], hcons⟩

theorem OnTrack.stepType (h : s.OnTrack) (ho : ¬ s.Fails o) {messageLength : ℕ} (hs : s.state = .type messageLength) :
    (s.step o).OnTrack := by
  have hann := h.announced
  obtain ⟨stream, hrec, hcons⟩ := h.consumed
  obtain ⟨hrec', hf'⟩ := h.reads ho
  simp only [Fails, wanted, part, hs, not_lt] at ho hrec hrec' hf'
  obtain ⟨t, rest, hdata⟩ := List.exists_cons_of_length_pos (Nat.lt_of_succ_le ho)
  have hle : [o.stale].length ≤ o.data.length := ho
  have hfill : (fill [o.stale] o).headD 0 = t := by
    rw [fill_of_le hle, hdata]
    rfl
  simp only [Announced, hs] at hann
  rw [step, hs]
  simp only [hfill]
  refine ⟨hf', h.late, h.header, hann, stream, ?_, hcons⟩
  simp only [hrec', hrec, part, hdata, List.take_succ_cons, List.take_zero, List.append_assoc, read_header]

/-- with its payload a message is complete -/
theorem OnTrack.stepPayload (h : s.OnTrack) (ho : ¬ s.Fails o) {messageLength : ℕ} {messageType : UInt8}
    (hs : s.state = .payload messageLength messageType) : (s.step o).OnTrack := by
  have hann := h.announced
  obtain ⟨stream, hrec, hcons⟩ := h.consumed
  obtain ⟨hrec', hf'⟩ := h.reads ho
  simp only [Fails, wanted, part, hs, not_lt] at ho hrec hrec' hf'
  simp only [Announced, hs] at hann
  obtain ⟨hann, hne⟩ := hann
  have hfill : fill (List.replicate (messageLength - 1) 0) o = o.data.take (messageLength - 1) := by
    rw [fill_of_le (by rwa [List.length_replicate]), List.length_replicate]
  have hbody : (messageType :: o.data.take (messageLength - 1)).length = getHeaderLength s.header := by
    rw [List.length_cons, List.length_take_of_le ho, hann]
    omega
  have hnext := hcons.append h.header hbody
  rw [step, hs]
  simp only [hfill]
  have hreceived : (s.read (messageLength - 1) o).received =
      stream ++ (s.header ++ messageType :: o.data.take (messageLength - 1)) := by
    rw [hrec', hrec]
    simp only [List.append_assoc, List.singleton_append]
  split
  · -- the handler throws
    exact ⟨hf', h.late, h.header, trivial, _, hreceived.trans (List.append_nil _).symm, hnext⟩
  · exact onTrack_test hf' h.late h.header (hreceived ▸ hnext)

/-- **A read that does not fail keeps the loop on track.** -/
theorem step_onTrack (h : s.OnTrack) (ho : ¬ s.Fails o) : (s.step o).OnTrack := by
  cases hs : s.state with
  | header => exact h.stepHeader ho hs
  | type messageLength => exact h.stepType ho hs
  | payload messageLength messageType => exact h.stepPayload ho hs
  | exited =>
    rw [step, hs]
    exact h

/-! ## The first failure -/

@[simp] theorem test_received (s : Receiver) : s.test.received = s.received := by unfold test; split <;> rfl

@[simp] theorem test_failed (s : Receiver) : s.test.failed = s.failed := by unfold test; split <;> rfl

@[simp] theorem test_handled (s : Receiver) : s.test.handled = s.handled := by unfold test; split <;> rfl

/-- every step is a read of what is wanted -/
theorem step_read (s : Receiver) (o : Outcome) :
    (s.step o).received = (s.read s.wanted o).received ∧ (s.step o).failed = (s.read s.wanted o).failed := by
  unfold step wanted
  cases s.state with
  | header =>
    simp only
    split
    · exact ⟨test_received _, test_failed _⟩
    · exact ⟨rfl, rfl⟩
  | type messageLength => exact ⟨rfl, rfl⟩
  | payload messageLength messageType =>
    simp only
    split
    · exact ⟨rfl, rfl⟩
    · exact ⟨test_received _, test_failed _⟩
  | exited => simp [read]

/-- what is received up to the first failure holds the messages handled so far, and no other complete one -/
theorem OnTrack.messages_of_fails (h : s.OnTrack) (ho : s.Fails o) :
    messages (s.received ++ o.data.take s.wanted) = s.handled := by
  have hh := h.header
  have hann := h.announced
  obtain ⟨stream, hrec, hcons⟩ := h.consumed
  have htake : o.data.take s.wanted = o.data := List.take_of_length_le ho.le
  rw [htake, hrec, List.append_assoc, hcons]
  unfold Fails at ho
  have hnone : messages (s.part ++ o.data) = [] := by
    cases hs : s.state with
    | header =>
      simp only [wanted, part, hs, List.nil_append] at ho ⊢
      exact messages_of_short ho
    | type messageLength =>
      simp only [wanted, part, Announced, hs] at ho hann ⊢
      exact messages_of_incomplete hh (by omega)
    | payload messageLength messageType =>
      simp only [wanted, part, Announced, hs, List.append_assoc, List.singleton_append] at ho hann ⊢
      exact messages_of_incomplete hh (by rw [List.length_cons]; omega)
    | exited =>
      simp only [wanted, hs] at ho
      exact absurd ho (Nat.not_lt_zero _)
  rw [hnone, List.append_nil]

/-- a failed read of a header that the loop survives: zeros are in the buffer, and the connection has been given up -/
def BenignFailure (s : Receiver) (o : Outcome) : Prop :=
  s.state = .header ∧ getHeaderLength (fill s.header o) = 0 ∧ (s.continueConnection = false ∨ o.stop = true)

/-- a failure after which something is handled, or begun, that should not be -/
structure Doomed (expected : List (UInt8 × Bytes)) (s : Receiver) : Prop where
  failed : s.failed = true
  due : messages s.received = expected
  wrong : expected.length < s.handled.length ∨ s.late = true ∨ (expected.length ≤ s.handled.length ∧ ¬ s.Settled)

theorem BenignFailure.step (h : s.BenignFailure o) (ht : s.OnTrack) (ho : s.Fails o) :
    (s.step o).state = .exited ∧ (s.step o).Delivered := by
  obtain ⟨hs, hzero, hstop⟩ := h
  obtain ⟨hrec, -⟩ := step_read s o
  have hfinal : s.step o = { s.read 4 o with header := fill s.header o, state := .exited } := by
    have hcont : (s.continueConnection && !o.stop) = false := by
      rcases hstop with h | h
      · rw [h, Bool.false_and]
      · rw [h, Bool.not_true, Bool.and_false]
    rw [Receiver.step, hs]
    simp only [hzero, if_true, test, read, hcont, Bool.false_eq_true, if_false]
  refine ⟨by rw [hfinal], ?_, by rw [hfinal]; exact ht.late⟩
  have hmessages := ht.messages_of_fails ho
  rw [hrec]
  simp only [read, ht.failed, Bool.false_eq_true, if_false, hmessages]
  rw [hfinal]
  rfl

theorem length_handled_le (s : Receiver) (o : Outcome) : s.handled.length ≤ (s.step o).handled.length := by
  unfold step
  cases s.state with
  | header =>
    simp only
    split
    · simp
    · exact le_rfl
  | type messageLength => exact le_rfl
  | payload messageLength messageType =>
    simp only
    split
    · simp
    · simp
  | exited => exact le_rfl

theorem late_test (h : s.late = true) : s.test.late = true := by
  unfold test
  split
  · simp only [h, Bool.true_or]
  · exact h

theorem late_step (o : Outcome) (h : s.late = true) : (s.step o).late = true := by
  unfold step
  cases s.state with
  | header =>
    simp only
    split
    · exact late_test h
    · exact h
  | type messageLength => exact h
  | payload messageLength messageType =>
    simp only
    split
    · exact h
    · exact late_test h
  | exited => exact h

/-- once the type has been read, or not, something is handled -/
theorem handled_of_payload {messageLength : ℕ} {messageType : UInt8} (o : Outcome)
    (hs : s.state = .payload messageLength messageType) : s.handled.length < (s.step o).handled.length := by
  rw [step, hs]
  simp only
  split
  · simp
  · simp

theorem OnTrack.doomed (h : s.OnTrack) (ho : s.Fails o) (hb : ¬ s.BenignFailure o) : Doomed s.handled (s.step o) := by
  obtain ⟨hrec, hf⟩ := step_read s o
  refine ⟨?_, ?_, ?_⟩
  · have hd : decide (o.data.length < s.wanted) = true := decide_eq_true ho
    rw [hf]
    simp only [read, hd, Bool.or_true]
  · rw [hrec]
    simp only [read, h.failed, Bool.false_eq_true, if_false]
    exact h.messages_of_fails ho
  · have hwanted : s.state = .exited → False := by
      intro hs
      unfold Fails at ho
      simp only [wanted, hs] at ho
      exact Nat.not_lt_zero _ ho
    cases hs : s.state with
    | header =>
      rw [step, hs]
      simp only
      split
      · rename_i hzero
        -- another iteration begins
        right; left
        have hcont : s.continueConnection = true ∧ o.stop = false := by
          constructor
          · by_contra hc
            exact hb ⟨hs, hzero, Or.inl (Bool.not_eq_true _ ▸ hc)⟩
          · by_contra hc
            exact hb ⟨hs, hzero, Or.inr (Bool.not_eq_false _ ▸ hc)⟩
        unfold Fails at ho
        simp only [wanted, hs] at ho
        simp only [test, read, hcont.1, hcont.2, Bool.not_false, Bool.and_self, if_true, decide_eq_true ho, Bool.or_true]
      · right; right
        exact ⟨le_rfl, not_settled_of_type rfl⟩
    | type messageLength =>
      rw [step, hs]
      right; right
      exact ⟨le_rfl, not_settled_of_payload rfl⟩
    | payload messageLength messageType => exact Or.inl (handled_of_payload o hs)
    | exited => exact (hwanted hs).elim

/-- what a doomed loop did wrong stays, or is still to come -/
theorem Doomed.step {expected : List (UInt8 × Bytes)} (h : Doomed expected s) (o : Outcome) :
    Doomed expected (s.step o) := by
  obtain ⟨hrec, hf⟩ := step_read s o
  refine ⟨?_, ?_, ?_⟩
  · rw [hf]
    simp only [read, h.failed, Bool.true_or]
  · rw [hrec]
    simp only [read, h.failed, if_true]
    exact h.due
  · rcases h.wrong with hlt | hlate | ⟨hle, hns⟩
    · exact Or.inl (lt_of_lt_of_le hlt (length_handled_le s o))
    · exact Or.inr (Or.inl (late_step o hlate))
    · cases hs : s.state with
      | header => exact absurd (Or.inl hs) hns
      | exited => exact absurd (Or.inr hs) hns
      | type messageLength =>
        rw [Receiver.step, hs]
        right; right
        exact ⟨hle, not_settled_of_payload rfl⟩
      | payload messageLength messageType =>
        left
        have := handled_of_payload o hs
        omega

theorem Doomed.run {expected : List (UInt8 × Bytes)} (h : Doomed expected s) (script : List Outcome) :
    Doomed expected (s.run script) := by
  induction script generalizing s with
  | nil => exact h
  | cons o script ih => exact ih (h.step o)

theorem Doomed.not_delivered {expected : List (UInt8 × Bytes)} (h : Doomed expected s) (hs : s.Settled) :
    ¬ s.Delivered := by
  rintro ⟨hhandled, hlate⟩
  rcases h.wrong with hlt | hl | ⟨-, hns⟩
  · rw [hhandled, h.due] at hlt
    exact lt_irrefl _ hlt
  · rw [hl] at hlate
    cases hlate
  · exact hns hs

/-! ## Runs -/

theorem run_exited (hs : s.state = .exited) (script : List Outcome) : s.run script = s := by
  induction script with
  | nil => rfl
  | cons o script ih =>
    have hstep : s.step o = s := by rw [step, hs]
    rw [run, List.foldl_cons, hstep]
    exact ih

/-- no read fails, or the first one to fail does no harm -/
def Benign (s : Receiver) : List Outcome → Prop
  | [] => True
  | o :: script => if s.Fails o then s.BenignFailure o else (s.step o).Benign script

theorem delivered_iff_benign (h : s.OnTrack) {script : List Outcome} (hend : (s.run script).Settled) :
    (s.run script).Delivered ↔ s.Benign script := by
  induction script generalizing s with
  | nil => exact iff_of_true (h.delivered hend) trivial
  | cons o script ih =>
    by_cases ho : s.Fails o
    · rw [Benign, if_pos ho]
      by_cases hb : s.BenignFailure o
      · obtain ⟨hexit, hdel⟩ := hb.step h ho
        refine iff_of_true ?_ hb
        rw [run, List.foldl_cons]
        rw [show script.foldl step (s.step o) = s.step o from run_exited hexit script]
        exact hdel
      · exact iff_of_false (((h.doomed ho hb).run script).not_delivered hend) hb
    · rw [Benign, if_neg ho]
      exact ih (step_onTrack h ho) hend

/-- **Delivery.** Between two messages or at the end, the loop has handled exactly the complete messages received before
the first failure, and begun nothing after it, if and only if no read has failed, or the first that has was a read of
a header that left zeros in the buffer, with the connection given up. -/
theorem delivery_iff (continueConnection : Bool) (script : List Outcome)
    (hend : ((init continueConnection).run script).Settled) :
    ((init continueConnection).run script).Delivered ↔ (init continueConnection).Benign script :=
  delivered_iff_benign (init_onTrack continueConnection) hend

instance (s : Receiver) (o : Outcome) : Decidable (s.BenignFailure o) := by unfold BenignFailure; infer_instance

instance decidableBenign : ∀ (s : Receiver) (script : List Outcome), Decidable (s.Benign script)
  | _, [] => isTrue trivial
  | s, o :: script =>
    let _ := decidableBenign (s.step o) script
    inferInstanceAs (Decidable (if s.Fails o then s.BenignFailure o else (s.step o).Benign script))

/-- the reads of one Unchoke message -/
def unchokeReads : List Outcome := [⟨[0, 0, 0, 1], false, 0, false⟩, ⟨[1], false, 0, false⟩, ⟨[], false, 0, false⟩]

theorem delivery_unchoke : ((init true).run unchokeReads).Delivered :=
  (delivery_iff true unchokeReads (Or.inl rfl)).2 (by decide)

/-- the stream ends; the byte for the type still holds the last one -/
def endOfStreamReads : List Outcome := [⟨[], false, 1, false⟩, ⟨[], false, 1, false⟩, ⟨[], false, 1, false⟩]

/-- **A message that nobody sent**: the last one is handled again when the stream ends. -/
theorem phantom_message : ((init true).run (unchokeReads ++ endOfStreamReads)).handled = [(1, []), (1, [])] ∧
    messages ((init true).run (unchokeReads ++ endOfStreamReads)).received = [(1, [])] ∧
    ((init true).run (unchokeReads ++ endOfStreamReads)).Settled ∧
    ¬ ((init true).run (unchokeReads ++ endOfStreamReads)).Delivered := by
  have hmessages : messages [0, 0, 0, 1, 1] = [(1, [])] := by
    have hheader : ([0, 0, 0, 1] : Bytes).length = 4 := rfl
    have hbody : ([1] : Bytes).length = getHeaderLength [0, 0, 0, 1] := rfl
    have hnone : messages [] = [] := messages_of_short (by decide)
    have h := messages_cons hheader hbody []
    rwa [hnone] at h
  refine ⟨rfl, hmessages, Or.inl rfl, ?_⟩
  rintro ⟨h, -⟩
  have hhandled : [(1, []), (1, [])] = messages [0, 0, 0, 1, 1] := h
  rw [hmessages] at hhandled
  cases hhandled

end Receiver

end SimpleTorrent
