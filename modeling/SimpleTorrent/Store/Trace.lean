/-
What the trace of a piece store says about its state.

`attempt x tr` is the part of the trace since piece `x` last entered the buffer, and `mark x k` reads the state of block
`k` off it: received once a block of it was written, requested once it was handed out after the last reopening.

- `Marks`: the marks in the slot of an open piece are the ones the trace gives.
- `Reopens`: a piece is reopened only when each of its blocks had been requested or received.
- `Saves`: the completed pieces are the saved ones, each saved once, whole, and with the right hash.
- `step_marks`, `step_reopens`, `step_saves`: every step keeps them.
- `handed_out_twice`: between two requests for the same block of one attempt lies a reopening.
-/
import SimpleTorrent.Store.Basic
import Mathlib.Data.List.DropRight

namespace SimpleTorrent

open Buffer Splice

namespace Store

variable {ι π : Type} {L : Layout ι} {sha1 : Bytes → Bytes} {s t : Store ι π} {x : ι} {k : ℕ}

/-! ## Saved pieces -/

/-- the pieces handed to the file manager, in order -/
def savedPieces (tr : List (Event ι)) : List ι :=
  tr.filterMap fun
    | .savePiece x _ _ => some x
    | _ => none

@[simp] theorem savedPieces_append (a b : List (Event ι)) : savedPieces (a ++ b) = savedPieces a ++ savedPieces b := by
  simp [savedPieces]

theorem mem_savedPieces {tr : List (Event ι)} : x ∈ savedPieces tr ↔ ∃ off d, .savePiece x off d ∈ tr := by
  simp only [savedPieces, List.mem_filterMap]
  constructor
  · rintro ⟨e, he, hx⟩
    cases e with
    | savePiece y off d => simp only [Option.some.injEq] at hx; subst hx; exact ⟨off, d, he⟩
    | _ => simp at hx
  · rintro ⟨off, d, h⟩; exact ⟨_, h, rfl⟩

structure Saves (L : Layout ι) (sha1 : Bytes → Bytes) (s : Store ι π) : Prop where
  completed : ∀ x, s.state x = some .completed ↔ x ∈ savedPieces s.trace
  nodup : (savedPieces s.trace).Nodup
  saved : ∀ x off d, .savePiece x off d ∈ s.trace → off = L.offset x ∧ d.length = L.len x ∧ sha1 d = L.hash x

/-- steps that save nothing and complete nothing -/
theorem Saves.frame (h : s.Saves L sha1) {l : List (Event ι)} (htr : t.trace = s.trace ++ l)
    (hl : savedPieces l = []) (hst : ∀ y, t.state y = some .completed ↔ s.state y = some .completed) :
    t.Saves L sha1 := by
  have hsaved : savedPieces t.trace = savedPieces s.trace := by rw [htr, savedPieces_append, hl, List.append_nil]
  refine ⟨fun y => by rw [hst, hsaved]; exact h.completed y, hsaved ▸ h.nodup, ?_⟩
  intro y off d hm
  rw [htr, List.mem_append] at hm
  rcases hm with hm | hm
  · exact h.saved y off d hm
  · have := mem_savedPieces.2 ⟨off, d, hm⟩
    rw [hl] at this
    simp at this

/-! ## Reading the trace -/

/-- the piece an entry is about -/
def eventPiece : Event ι → ι
  | .addPiece x => x
  | .clearAllRequested x => x
  | .request x _ => x
  | .writeBlock x _ => x
  | .savePiece x _ _ => x
  | .hashMismatch x => x

variable [DecidableEq ι]

/-- the trace since piece `x` last entered the buffer -/
def attempt (x : ι) (tr : List (Event ι)) : List (Event ι) := tr.rtakeWhile fun e => e ≠ .addPiece x

def markStep (x : ι) (k : ℕ) (b : BlockState) : Event ι → BlockState
  | .request y j => if y = x ∧ j = k ∧ b = .dontHave then .requested else b
  | .writeBlock y j => if y = x ∧ j = k then .haveBlock else b
  | .clearAllRequested y => if y = x ∧ b = .requested then .dontHave else b
  | _ => b

/-- the state of block `k` of piece `x` after an attempt -/
def mark (x : ι) (k : ℕ) (att : List (Event ι)) : BlockState := att.foldl (markStep x k) .dontHave

theorem attempt_snoc (tr : List (Event ι)) (e : Event ι) :
    attempt x (tr ++ [e]) = if e = .addPiece x then [] else attempt x tr ++ [e] := by
  unfold attempt
  rw [List.rtakeWhile_concat]
  by_cases h : e = .addPiece x <;> simp [h]

theorem attempt_snoc_ne {tr : List (Event ι)} {e : Event ι} (h : e ≠ .addPiece x) :
    attempt x (tr ++ [e]) = attempt x tr ++ [e] := by rw [attempt_snoc, if_neg h]

@[simp] theorem mark_snoc (att : List (Event ι)) (e : Event ι) :
    mark x k (att ++ [e]) = markStep x k (mark x k att) e := by simp [mark]

/-- entries about other pieces leave the marks alone -/
theorem markStep_of_ne {e : Event ι} (h : eventPiece e ≠ x) (b : BlockState) : markStep x k b e = b := by
  cases e <;> simp_all [markStep, eventPiece]

theorem mark_attempt_of_ne {tr : List (Event ι)} {e : Event ι} (h : eventPiece e ≠ x) :
    mark x k (attempt x (tr ++ [e])) = mark x k (attempt x tr) := by
  have hne : e ≠ .addPiece x := by rintro rfl; exact h rfl
  rw [attempt_snoc_ne hne, mark_snoc, markStep_of_ne h]

theorem mark_have_iff (att : List (Event ι)) : mark x k att = .haveBlock ↔ .writeBlock x k ∈ att := by
  induction att using List.reverseRecOn with
  | nil => simp [mark]
  | append_singleton att e ih =>
    rw [mark_snoc, List.mem_append, ← ih, List.mem_singleton]
    cases e with
    | writeBlock y j =>
      simp only [markStep, Event.writeBlock.injEq]
      split_ifs with h
      · simp [h.1.symm, h.2.symm]
      · constructor
        · exact Or.inl
        · rintro (h' | ⟨rfl, rfl⟩)
          · exact h'
          · exact absurd ⟨rfl, rfl⟩ h
    | request y j => simp only [markStep]; split_ifs with h <;> simp [*]
    | clearAllRequested y => simp only [markStep]; split_ifs with h <;> simp [*]
    | addPiece y => simp [markStep]
    | savePiece y off d => simp [markStep]
    | hashMismatch y => simp [markStep]

/-- a block that is not missing was requested or received in the attempt -/
theorem requested_or_received {att : List (Event ι)} (h : mark x k att ≠ .dontHave) :
    .request x k ∈ att ∨ .writeBlock x k ∈ att := by
  induction att using List.reverseRecOn with
  | nil => simp [mark] at h
  | append_singleton att e ih =>
    by_cases hm : mark x k att = .dontHave
    · rw [mark_snoc, hm] at h
      cases e with
      | request y j =>
        simp only [markStep] at h
        split_ifs at h with hc
        · simp [hc.1, hc.2.1]
        · exact absurd rfl h
      | writeBlock y j =>
        simp only [markStep] at h
        split_ifs at h with hc
        · simp [hc.1, hc.2]
        · exact absurd rfl h
      | clearAllRequested y => simp [markStep] at h
      | addPiece y => simp [markStep] at h
      | savePiece y off d => simp [markStep] at h
      | hashMismatch y => simp [markStep] at h
    · rcases ih hm with h | h
      · exact Or.inl (List.mem_append_left _ h)
      · exact Or.inr (List.mem_append_left _ h)

/-- a block that was handed out and is missing again was reopened in between -/
theorem handed_out_twice {att a b : List (Event ι)} (hatt : att = a ++ .request x k :: b)
    (hm : mark x k att = .dontHave) : ∃ b₁ b₂, b = b₁ ++ .clearAllRequested x :: b₂ := by
  subst hatt
  induction b using List.reverseRecOn with
  | nil =>
    rw [mark_snoc, markStep] at hm
    split_ifs at hm with hc
    simp [hm] at hc
  | append_singleton b e ih =>
    rw [show a ++ .request x k :: (b ++ [e]) = (a ++ .request x k :: b) ++ [e] by simp, mark_snoc] at hm
    by_cases hprev : mark x k (a ++ .request x k :: b) = .dontHave
    · obtain ⟨b₁, b₂, rfl⟩ := ih hprev
      exact ⟨b₁, b₂ ++ [e], by simp⟩
    · cases e with
      | clearAllRequested y =>
        simp only [markStep] at hm
        split_ifs at hm with hc
        · exact ⟨b, [], by rw [hc.1]⟩
        · exact absurd hm hprev
      | request y j =>
        simp only [markStep] at hm
        split_ifs at hm
        exact absurd hm hprev
      | writeBlock y j =>
        simp only [markStep] at hm
        split_ifs at hm
        exact absurd hm hprev
      | addPiece y => exact absurd hm hprev
      | savePiece y off d => exact absurd hm hprev
      | hashMismatch y => exact absurd hm hprev

theorem mark_attempt_append_of_ne {tr es : List (Event ι)} (h : ∀ e ∈ es, eventPiece e ≠ x) :
    mark x k (attempt x (tr ++ es)) = mark x k (attempt x tr) := by
  induction es using List.reverseRecOn with
  | nil => simp
  | append_singleton es e ih =>
    rw [← List.append_assoc, mark_attempt_of_ne (h e (by simp))]
    exact ih fun e' he' => h e' (List.mem_append_left _ he')

/-! ## The marks in the slots -/

def Marks (L : Layout ι) (s : Store ι π) : Prop :=
  ∀ x sl, s.slot x = some sl → ∀ k < L.blocks x, sl.blocks[k]? = some (mark x k (attempt x s.trace))

/-- entries about one piece leave the marks of the others in place -/
theorem Marks.frame (h : s.Marks L) {x : ι} {es : List (Event ι)} (htr : t.trace = s.trace ++ es)
    (hes : ∀ e ∈ es, eventPiece e = x) (hsl : ∀ y, y ≠ x → t.slot y = s.slot y)
    (hx : ∀ sl, t.slot x = some sl → ∀ k < L.blocks x, sl.blocks[k]? = some (mark x k (attempt x t.trace))) :
    t.Marks L := by
  intro y sl hy k hk
  by_cases hyx : y = x
  · subst hyx; exact hx sl hy k hk
  · rw [hsl y hyx] at hy
    rw [htr, mark_attempt_append_of_ne fun e he hey => hyx (hey.symm.trans (hes e he))]
    exact h y sl hy k hk

theorem Marks.retrieve (h : s.Marks L) {x : ι} {sl : Slot} (hsl : s.slot x = some sl) :
    (s.retrieve x sl).Marks L := by
  refine h.frame (x := x) (retrieve_trace s x sl) ?_ (fun y hy => by simp [retrieve_slot, hy]) ?_
  · intro e he
    cases hm : firstMissing sl.blocks with
    | none => simp [hm] at he
    | some k => simp only [hm, Option.map_some, Option.toList_some, List.mem_singleton] at he; subst he; rfl
  · intro r hr j hj
    rw [retrieve_slot, Function.update_self, Option.some.injEq] at hr
    subst hr
    rw [getElem?_markRequested, retrieve_trace]
    have hold := h x sl hsl j hj
    cases hm : firstMissing sl.blocks with
    | none => simpa [hm] using hold
    | some k =>
      simp only [Option.map_some, Option.toList_some, Option.some.injEq]
      rw [attempt_snoc_ne (by simp), mark_snoc, markStep]
      by_cases hkj : k = j
      · subst hkj
        have hmiss := (firstMissing_eq_some.1 hm).1
        rw [hold, Option.some.injEq] at hmiss
        simp [hmiss]
      · simpa [hkj] using hold

theorem Marks.deliver (h : s.Marks L) (hinv : s.Inv L) {x : ι} {sl : Slot} {off : ℕ} {src : Bytes}
    (hsl : s.slot x = some sl) : (s.deliver L sha1 x sl off src).Marks L := by
  rcases deliver_cases L sha1 s x sl off src with ⟨-, ⟨-, ht⟩ | ⟨-, ht⟩⟩ | ⟨-, ht⟩ <;> rw [ht]
  · exact h.frame (x := x) (by simp [close]; rfl) (by simp [eventPiece]) (fun y hy => by simp [close, hy])
      (by simp [close])
  · exact h.frame (x := x) (by simp [close]; rfl) (by simp [eventPiece]) (fun y hy => by simp [close, hy])
      (by simp [close])
  · apply h.frame (x := x) rfl (by simp [eventPiece]) (fun y hy => by simp [hy])
    intro r hr j hj
    simp only [setSlot_slot, Function.update_self, Option.some.injEq] at hr
    subst hr
    have hold := h x sl hsl j hj
    have hlen := (hinv.piece x).blocks sl hsl
    simp only [setSlot_trace, log_trace]
    rw [attempt_snoc_ne (by simp), mark_snoc, markStep]
    by_cases hkj : off / L.blockLength = j
    · subst hkj
      rw [if_pos ⟨rfl, rfl⟩, List.getElem?_set_self (by omega)]
    · simpa [hkj] using hold

/-! ## Reopenings -/

/-- whenever `x` was reopened, each of its blocks had been requested or received -/
def Reopens (L : Layout ι) (s : Store ι π) : Prop :=
  ∀ x a b, attempt x s.trace = a ++ .clearAllRequested x :: b → ∀ k < L.blocks x, mark x k a ≠ .dontHave

/-- one more entry: it must be no reopening, or a legitimate one -/
theorem Reopens.snoc (h : s.Reopens L) {e : Event ι} (htr : t.trace = s.trace ++ [e])
    (he : ∀ x, e = .clearAllRequested x → ∀ k < L.blocks x, mark x k (attempt x s.trace) ≠ .dontHave) :
    t.Reopens L := by
  intro x a b hab
  rw [htr, attempt_snoc] at hab
  split_ifs at hab with hadd
  · simp at hab
  · rcases List.eq_nil_or_concat b with rfl | ⟨b, e', rfl⟩
    · obtain ⟨rfl, he'⟩ := List.append_inj' hab rfl
      simp only [List.cons.injEq, and_true] at he'
      exact he x he'
    · rw [show a ++ .clearAllRequested x :: b.concat e' = (a ++ .clearAllRequested x :: b) ++ [e'] by simp] at hab
      exact h x a b (List.append_inj' hab rfl).1

/-! ## Completions -/

/-- a change of one piece that is not completed before or after -/
theorem completed_update_iff {st : PieceState} (hx : s.state x ≠ some .completed) (hst : st ≠ .completed) (y : ι) :
    Function.update s.state x (some st) y = some .completed ↔ s.state y = some .completed := by
  by_cases hy : y = x
  · subst hy; simp [hx, hst]
  · simp [hy]

theorem Saves.deliver (h : s.Saves L sha1) (hinv : s.Inv L) {x : ι} {sl : Slot} {off : ℕ} {src : Bytes}
    (hsl : s.slot x = some sl) (hlen : off + src.length ≤ L.len x) : (s.deliver L sha1 x sl off src).Saves L sha1 := by
  have hx : s.state x ≠ some .completed := by
    rcases hinv.state_of_slot hsl with hx | hx <;> simp [hx]
  have hdata := (hinv.piece x).data sl hsl
  rcases deliver_cases L sha1 s x sl off src with ⟨-, ⟨hver, ht⟩ | ⟨-, ht⟩⟩ | ⟨-, ht⟩ <;> rw [ht]
  · refine ⟨?_, ?_, ?_⟩
    · intro y
      simp only [close, setSlot_state, dropAffinity_state, setState_state, log_state, setSlot_trace, dropAffinity_trace,
        setState_trace, log_trace, savedPieces_append, List.mem_append]
      by_cases hy : y = x
      · subst hy; simp [savedPieces]
      · simpa [hy, savedPieces] using h.completed y
    · have hnot : x ∉ savedPieces s.trace := fun hm => hx ((h.completed x).2 hm)
      simp only [close, setSlot_trace, dropAffinity_trace, setState_trace, log_trace, savedPieces_append]
      rw [show savedPieces ([.writeBlock x (off / L.blockLength)] : List (Event ι)) = [] from rfl, List.append_nil,
        show savedPieces [Event.savePiece x (L.offset x) (splice sl.data off src)] = [x] from rfl]
      exact List.nodup_append.2 ⟨h.nodup, List.nodup_singleton x, fun y hy z hz e => by
        rw [List.mem_singleton] at hz; exact hnot (hz ▸ e ▸ hy)⟩
    · intro y o d hm
      simp only [close, setSlot_trace, dropAffinity_trace, setState_trace, log_trace, List.mem_append,
        List.mem_singleton] at hm
      rcases hm with (hm | hm) | hm
      · exact h.saved y o d hm
      · cases hm
      · cases hm
        exact ⟨rfl, by rw [length_splice (by omega), hdata], hver⟩
  · apply h.frame (l := [.writeBlock x (off / L.blockLength), .hashMismatch x]) (by simp [close]) rfl
    intro y
    simpa [close] using completed_update_iff hx (by decide) y
  · exact h.frame rfl rfl fun y => Iff.rfl

theorem savedPieces_retrieve (x : ι) (sl : Slot) : savedPieces (s.retrieve x sl).trace = savedPieces s.trace := by
  rw [retrieve_trace]
  cases firstMissing sl.blocks <;> simp [savedPieces]

/-! ## Every step -/

variable [DecidableEq π]

/-- every step keeps the marks in line with the trace -/
theorem step_marks (hinv : s.Inv L) (h : s.Marks L) (hs : s.Step L sha1 t) : t.Marks L := by
  cases hs with
  | openPiece p x S data _ _ _ _ =>
    apply h.frame (x := x) rfl (by simp [eventPiece]) (fun y hy => by simp [openPiece, hy])
    intro r hr k hk
    simp only [openPiece, bind_slot, setState_slot, log_slot, setSlot_slot, Function.update_self,
      Option.some.injEq] at hr
    subst hr
    simp only [openPiece, bind_trace, setState_trace, log_trace, setSlot_trace]
    rw [attempt_snoc, if_pos rfl]
    simp [mark, hk]
  | bind p x S _ _ _ => exact h
  | reopen p x S sl _ hsl _ _ =>
    apply h.frame (x := x) rfl (by simp [eventPiece]) (fun y hy => by simp [reopen, hy])
    intro r hr k hk
    simp only [reopen, setState_slot, log_slot, setSlot_slot, Function.update_self, Option.some.injEq] at hr
    subst hr
    simp only [reopen, setState_trace, log_trace, setSlot_trace, bind_trace]
    rw [attempt_snoc_ne (by simp), mark_snoc, getElem?_clearRequested, h x sl hsl k hk, markStep]
    simp
  | retrieve x sl _ hsl => exact h.retrieve hsl
  | deliver x sl off src hsl _ _ _ => exact h.deliver hinv hsl
  | announce p S => exact h
  | removePeer p => exact h

theorem step_reopens (hinv : s.Inv L) (hm : s.Marks L) (h : s.Reopens L) (hs : s.Step L sha1 t) : t.Reopens L := by
  cases hs with
  | openPiece p x S data _ _ _ _ => exact h.snoc rfl (by simp)
  | bind p x S _ _ _ => exact h
  | reopen p x S sl hx hsl _ _ =>
    apply h.snoc rfl
    intro y hy k hk
    simp only [Event.clearAllRequested.injEq] at hy
    subst hy
    intro hmark
    have hk' := hm x sl hsl k hk
    rw [hmark] at hk'
    exact (hinv.piece x).requested sl hx hsl (List.mem_of_getElem? hk')
  | retrieve x sl _ hsl =>
    cases hf : firstMissing sl.blocks with
    | none => intro y a b hab; exact h y a b (by simpa [retrieve_trace, hf] using hab)
    | some k => exact h.snoc (e := .request x k) (by simp [retrieve_trace, hf]) (by simp)
  | deliver x sl off src hsl _ _ _ =>
    have hw : (s.log (.writeBlock x (off / L.blockLength))).Reopens L := h.snoc rfl (by simp)
    rcases deliver_cases L sha1 s x sl off src with ⟨-, ⟨-, ht⟩ | ⟨-, ht⟩⟩ | ⟨-, ht⟩ <;> rw [ht]
    · exact hw.snoc (t := ((s.log _).log _).close x _) rfl (by simp)
    · exact hw.snoc (t := ((s.log _).log _).close x _) rfl (by simp)
    · exact hw
  | announce p S => exact h
  | removePeer p => exact h

/-- every step saves only complete, verified pieces, and no piece twice -/
theorem step_saves (hinv : s.Inv L) (h : s.Saves L sha1) (hs : s.Step L sha1 t) : t.Saves L sha1 := by
  cases hs with
  | openPiece p x S data hx _ _ _ =>
    exact h.frame (l := [.addPiece x]) rfl rfl (completed_update_iff (by simp [hx]) (by decide))
  | bind p x S _ _ _ => exact ⟨h.completed, h.nodup, h.saved⟩
  | reopen p x S sl hx _ _ _ =>
    exact h.frame (l := [.clearAllRequested x]) rfl rfl (completed_update_iff (by simp [hx]) (by decide))
  | retrieve x sl hx hsl =>
    refine h.frame (retrieve_trace s x sl) ?_ ?_
    · cases firstMissing sl.blocks <;> rfl
    · intro y
      rw [retrieve_state]
      split_ifs
      · rfl
      · exact completed_update_iff (by simp [hx]) (by decide) y
  | deliver x sl off src hsl _ hlen _ => exact h.deliver hinv hsl hlen
  | announce p S => exact ⟨h.completed, h.nodup, h.saved⟩
  | removePeer p => exact ⟨h.completed, h.nodup, h.saved⟩

/-! ## The full invariant -/

/-- everything that holds of a reachable store -/
structure Good (L : Layout ι) (sha1 : Bytes → Bytes) (s : Store ι π) : Prop where
  inv : s.Inv L
  marks : s.Marks L
  reopens : s.Reopens L
  saves : s.Saves L sha1

theorem step_good (h : s.Good L sha1) (hs : s.Step L sha1 t) : t.Good L sha1 :=
  ⟨step_inv h.inv hs, step_marks h.inv h.marks hs, step_reopens h.inv h.marks h.reopens hs,
    step_saves h.inv h.saves hs⟩

/-- the trace only grows -/
theorem step_trace_grows (hs : s.Step L sha1 t) : s.trace <+: t.trace := by
  cases hs with
  | openPiece p x S data _ _ _ _ => exact List.prefix_append _ _
  | bind p x S _ _ _ => exact List.prefix_refl _
  | reopen p x S sl _ _ _ _ => exact List.prefix_append _ _
  | retrieve x sl _ _ => rw [retrieve_trace]; exact List.prefix_append _ _
  | deliver x sl off src _ _ _ _ =>
    rcases deliver_cases L sha1 s x sl off src with ⟨-, ⟨-, ht⟩ | ⟨-, ht⟩⟩ | ⟨-, ht⟩ <;> rw [ht]
    · exact (List.prefix_append _ _).trans (List.prefix_append _ _)
    · exact (List.prefix_append _ _).trans (List.prefix_append _ _)
    · exact List.prefix_append _ _
  | announce p S => exact List.prefix_refl _
  | removePeer p => exact List.prefix_refl _

/-- **Completion is permanent**: a completed piece was saved, and the trace keeps that. -/
theorem step_completed (h : s.Good L sha1) (hs : s.Step L sha1 t) (hx : s.state x = some .completed) :
    t.state x = some .completed := by
  rw [(step_good h hs).saves.completed]
  obtain ⟨l, hl⟩ := step_trace_grows hs
  rw [← hl, savedPieces_append]
  exact List.mem_append_left _ ((h.saves.completed x).1 hx)

/-- a choice saves nothing -/
theorem Choice.trace {full : Prop} {p : π} {S : Set ι} {r : Option ι} (h : Choice L full p S s r t) :
    ∃ l, t.trace = s.trace ++ l ∧ ∀ e ∈ l, ∃ x, e = .addPiece x ∨ e = .clearAllRequested x := by
  cases h with
  | affinity x ha => exact ⟨[], by simp, by simp⟩
  | opened x data ha hx hS hfull hd => exact ⟨[.addPiece x], rfl, by simp⟩
  | bound x ha hx hS hstart => exact ⟨[], by simp, by simp⟩
  | reopened x sl ha hx hsl hS hstart => exact ⟨[.clearAllRequested x], rfl, by simp⟩
  | nothing ha hopen hstart => exact ⟨[], by simp, by simp⟩

theorem Choice.savedPieces {full : Prop} {p : π} {S : Set ι} {r : Option ι} (h : Choice L full p S s r t) :
    savedPieces t.trace = savedPieces s.trace := by
  obtain ⟨l, hl, hle⟩ := h.trace
  have hnil : Store.savedPieces l = [] := List.filterMap_eq_nil_iff.2 fun e he => by
    rcases hle e he with ⟨x, rfl | rfl⟩ <;> rfl
  rw [hl, savedPieces_append, hnil, List.append_nil]

/-! ## Any number of steps -/

section Steps

variable (h : Relation.ReflTransGen (Step L sha1) s t)
include h

theorem steps_good (hs : s.Good L sha1) : t.Good L sha1 := by
  induction h with
  | refl => exact hs
  | tail _ hst ih => exact step_good ih hst

theorem steps_trace_grows : s.trace <+: t.trace := by
  induction h with
  | refl => exact List.prefix_refl _
  | tail _ hst ih => exact ih.trans (step_trace_grows hst)

theorem steps_completed (hs : s.Good L sha1) (hx : s.state x = some .completed) : t.state x = some .completed := by
  induction h with
  | refl => exact hx
  | tail hu hst ih => exact step_completed (steps_good hu hs) hst ih

end Steps

end Store

end SimpleTorrent
