/-
When a peer says that it has exited.

`start` sets its flag at every exit but one: the address is parsed outside the `try` blocks. `send_messages` sets its
flag only if its loop ends by its condition; an exception in a request step or in the wait ends it unrecorded.

- `Sound`: a flag that is set is right. This holds in every state.
- `Recorded`: a routine that has ended has its flag set. `step_recorded`: a step spoils this exactly if a routine ends
  by one of these exceptions.
- `reclaim_iff`: a peer that has exited is not resumed; one whose routines have ended has exited exactly if neither of
  them ended unrecorded.
- `never_reclaimed`: otherwise it never will.
-/
import SimpleTorrent.Core.Runs
import SimpleTorrent.Model.Routines

namespace SimpleTorrent.Routines

open Runs

variable {s : Routines}

/-- neither coroutine will be resumed -/
def Ended (s : Routines) : Prop := s.main = .ended ∧ (s.spawned = .notSpawned ∨ s.spawned = .ended)

/-- before `send_messages` is spawned -/
def early : MainRoutine → Bool
  | .created | .connect | .sendHandshake | .receiveHandshake | .sendInterested => true
  | _ => false

/-- `select_next_block` is called in the step -/
def Selects (s : Routines) (o : SpawnedOutcome) : Prop :=
  match s.spawned with
  | .spawned => s.continueConnection = true ∧ s.isChoked = false ∧ s.numInFlight.toNat < Peer.maxInFlight
  | .write => o.throws = false ∧ (s.numInFlight + 1).toNat < Peer.maxInFlight
  | .timer => o.throws = false ∧ s.continueConnection = true ∧ s.isChoked = false ∧
      s.numInFlight.toNat < Peer.maxInFlight
  | _ => False

/-- what `send_messages` waits for throws, or the piece manager does; or the address cannot be parsed -/
def Unrecorded (s : Routines) : Op → Prop
  | .main o => s.main = .created ∧ o.throws = true
  | .spawned o => (s.spawned = .write ∨ s.spawned = .timer) ∧ o.throws = true ∨ s.Selects o ∧ o.selection = .throws
  | .timeout => False

/-! ## What a step does -/

/-- `start` goes on, or ends with its flag set -/
structure Proceeds (s t : Routines) : Prop where
  main : t.main = .ended ∧ t.mainRoutineHasExited = true ∨
    t.main ≠ .ended ∧ t.mainRoutineHasExited = s.mainRoutineHasExited
  spawned : t.spawned = s.spawned ∧ t.spawnedRoutineHasExited = s.spawnedRoutineHasExited ∨
    early s.main = true ∧ t.spawned = .spawned ∧ t.spawnedRoutineHasExited = false
  early : early t.main = true → early s.main = true ∧ t.spawned = s.spawned

theorem leave_proceeds (s : Routines) : s.Proceeds s.leave :=
  ⟨Or.inl ⟨rfl, rfl⟩, Or.inl ⟨rfl, rfl⟩, by simp [leave, early]⟩

theorem finish_proceeds (s : Routines) : s.Proceeds s.finish :=
  ⟨Or.inl ⟨rfl, rfl⟩, Or.inl ⟨rfl, rfl⟩, by simp [finish, early]⟩

/-- `start` goes on to its next `co_await` -/
theorem goTo_proceeds (s : Routines) {next : MainRoutine} (hlive : next ≠ .ended)
    (h : early next = true → early s.main = true) : s.Proceeds { s with main := next } :=
  ⟨Or.inr ⟨hlive, rfl⟩, Or.inl ⟨rfl, rfl⟩, fun hnext => ⟨h hnext, rfl⟩⟩

theorem receiveMessages_proceeds (s : Routines) : s.Proceeds s.receiveMessages := by
  rw [receiveMessages]
  split_ifs
  · exact goTo_proceeds s (by simp) (by simp [early])
  · exact finish_proceeds s

/-- `handle_message` is not part of the life of a coroutine -/
theorem handleMessage_frame (s : Routines) (type : UInt8) (n : ℕ) :
    (s.handleMessage type n).mainRoutineHasExited = s.mainRoutineHasExited ∧
      (s.handleMessage type n).spawned = s.spawned ∧
      (s.handleMessage type n).spawnedRoutineHasExited = s.spawnedRoutineHasExited := by
  rw [handleMessage]
  split
  · exact ⟨rfl, rfl, rfl⟩
  · exact ⟨rfl, rfl, rfl⟩
  · split_ifs <;> exact ⟨rfl, rfl, rfl⟩
  · exact ⟨rfl, rfl, rfl⟩

/-- the second coroutine is spawned, and the first goes on to its loop -/
theorem spawn_proceeds (hs : s.main = .sendInterested) :
    s.Proceeds { s with spawnedRoutineHasExited := false, spawned := .spawned }.receiveMessages := by
  rw [receiveMessages]
  split_ifs
  · exact ⟨Or.inr ⟨by simp, rfl⟩, Or.inr ⟨by rw [hs]; rfl, rfl, rfl⟩, by simp [early]⟩
  · exact ⟨Or.inl ⟨rfl, rfl⟩, Or.inr ⟨by rw [hs]; rfl, rfl, rfl⟩, by simp [finish, early]⟩

theorem handled_proceeds (s : Routines) (type : UInt8) (n : ℕ) :
    s.Proceeds (s.handleMessage type n).receiveMessages := by
  obtain ⟨hmain, hspawned, hflag⟩ := handleMessage_frame s type n
  rw [receiveMessages]
  split_ifs
  · exact ⟨Or.inr ⟨by simp, hmain⟩, Or.inl ⟨hspawned, hflag⟩, by simp [early]⟩
  · exact ⟨Or.inl ⟨rfl, rfl⟩, Or.inl ⟨hspawned, hflag⟩, by simp [finish, early]⟩

theorem resumeMain_proceeds (o : MainOutcome) (hlive : s.main ≠ .ended) (h : ¬ s.Unrecorded (.main o)) :
    s.Proceeds (s.resumeMain o) := by
  rw [Unrecorded] at h
  cases hs : s.main with
  | ended => exact absurd hs hlive
  | created =>
    have hthrows : ¬ o.throws = true := fun ht => h ⟨hs, ht⟩
    simp only [resumeMain, hs, if_neg hthrows]
    exact goTo_proceeds s (by simp) fun _ => by rw [hs]; rfl
  | connect | sendHandshake =>
    simp only [resumeMain, hs]
    split_ifs
    · exact leave_proceeds s
    · exact goTo_proceeds s (by simp) fun _ => by rw [hs]; rfl
  | receiveHandshake =>
    simp only [resumeMain, hs]
    split_ifs
    · exact leave_proceeds s
    · exact leave_proceeds s
    · exact goTo_proceeds s (by simp) fun _ => by rw [hs]; rfl
  | sendInterested =>
    simp only [resumeMain, hs]
    split_ifs
    · exact leave_proceeds s
    · exact spawn_proceeds hs
  | header =>
    simp only [resumeMain, hs]
    split_ifs
    · exact finish_proceeds s
    · exact receiveMessages_proceeds s
    · exact goTo_proceeds s (by simp) (by simp [early])
  | type n =>
    simp only [resumeMain, hs]
    split_ifs
    · exact finish_proceeds s
    · exact goTo_proceeds s (by simp) (by simp [early])
  | payload n type =>
    simp only [resumeMain, hs]
    split_ifs
    · exact finish_proceeds s
    · exact handled_proceeds s type (n - 1)

/-- `send_messages` goes on, or ends with its flag set -/
structure Sends (s t : Routines) : Prop where
  main : t.main = s.main ∧ t.mainRoutineHasExited = s.mainRoutineHasExited
  spawned : t.spawned = .ended ∧ t.spawnedRoutineHasExited = true ∨
    (t.spawned = .write ∨ t.spawned = .timer) ∧ t.spawnedRoutineHasExited = s.spawnedRoutineHasExited

/-- `send_messages` ends, and its flag is left as it is -/
structure Loses (s t : Routines) : Prop where
  main : t.main = s.main ∧ t.mainRoutineHasExited = s.mainRoutineHasExited
  spawned : t.spawned = .ended ∧ t.spawnedRoutineHasExited = s.spawnedRoutineHasExited

theorem sendBlockRequests_cases (s : Routines) (selection : Selection) :
    s.numInFlight.toNat < Peer.maxInFlight ∧ selection = .throws ∧ s.Loses (s.sendBlockRequests selection) ∨
      ¬ (s.numInFlight.toNat < Peer.maxInFlight ∧ selection = .throws) ∧ s.Sends (s.sendBlockRequests selection) := by
  unfold sendBlockRequests
  split_ifs with hroom
  · cases selection with
    | throws => exact Or.inl ⟨hroom, rfl, ⟨rfl, rfl⟩, ⟨rfl, rfl⟩⟩
    | none => exact Or.inr ⟨by simp, ⟨rfl, rfl⟩, Or.inr ⟨Or.inr rfl, rfl⟩⟩
    | request => exact Or.inr ⟨by simp, ⟨rfl, rfl⟩, Or.inr ⟨Or.inl rfl, rfl⟩⟩
  · exact Or.inr ⟨fun h => hroom h.1, ⟨rfl, rfl⟩, Or.inr ⟨Or.inr rfl, rfl⟩⟩

theorem sendMessages_cases (s : Routines) (selection : Selection) :
    (s.continueConnection = true ∧ s.isChoked = false ∧ s.numInFlight.toNat < Peer.maxInFlight) ∧ selection = .throws ∧
        s.Loses (s.sendMessages selection) ∨
      ¬ ((s.continueConnection = true ∧ s.isChoked = false ∧ s.numInFlight.toNat < Peer.maxInFlight) ∧
        selection = .throws) ∧ s.Sends (s.sendMessages selection) := by
  rw [sendMessages]
  split_ifs with hcontinue hchoked
  · exact Or.inr ⟨by simp [hchoked], ⟨rfl, rfl⟩, Or.inr ⟨Or.inr rfl, rfl⟩⟩
  · rcases sendBlockRequests_cases s selection with ⟨hroom, hsel, hloses⟩ | ⟨hno, hsends⟩
    · exact Or.inl ⟨⟨hcontinue, by simpa using hchoked, hroom⟩, hsel, hloses⟩
    · exact Or.inr ⟨fun h => hno ⟨h.1.2.2, h.2⟩, hsends⟩
  · exact Or.inr ⟨by simp [hcontinue], ⟨rfl, rfl⟩, Or.inl ⟨rfl, rfl⟩⟩

theorem resumeSpawned_cases (o : SpawnedOutcome) (hspawned : s.spawned ≠ .notSpawned) (hlive : s.spawned ≠ .ended) :
    s.Unrecorded (.spawned o) ∧ s.Loses (s.resumeSpawned o) ∨
      ¬ s.Unrecorded (.spawned o) ∧ s.Sends (s.resumeSpawned o) := by
  cases hs : s.spawned with
  | notSpawned => exact absurd hs hspawned
  | ended => exact absurd hs hlive
  | spawned =>
    simpa [resumeSpawned, Unrecorded, Selects, hs, and_assoc] using sendMessages_cases s o.selection
  | write =>
    cases ht : o.throws with
    | true => exact Or.inl ⟨Or.inl ⟨Or.inl hs, ht⟩, by simp only [resumeSpawned, hs, ht]; exact ⟨⟨rfl, rfl⟩, rfl, rfl⟩⟩
    | false =>
      have hresume : s.resumeSpawned o =
          ({ s with numInFlight := s.numInFlight + 1 } : Routines).sendBlockRequests o.selection := by
        simp [resumeSpawned, hs, ht]
      rw [hresume]
      rcases sendBlockRequests_cases { s with numInFlight := s.numInFlight + 1 } o.selection with
        ⟨hroom, hsel, hloses⟩ | ⟨hno, hsends⟩
      · refine Or.inl ⟨Or.inr ⟨?_, hsel⟩, hloses.main, hloses.spawned⟩
        simp only [Selects, hs]
        exact ⟨ht, hroom⟩
      · refine Or.inr ⟨?_, hsends.main, hsends.spawned⟩
        simpa [Unrecorded, Selects, hs, ht] using hno
  | timer =>
    cases ht : o.throws with
    | true => exact Or.inl ⟨Or.inl ⟨Or.inr hs, ht⟩, by simp only [resumeSpawned, hs, ht]; exact ⟨⟨rfl, rfl⟩, rfl, rfl⟩⟩
    | false =>
      simpa [resumeSpawned, Unrecorded, Selects, hs, ht, and_assoc] using sendMessages_cases s o.selection

/-! ## Flags that are set -/

/-- a flag that is set is right -/
structure Sound (s : Routines) : Prop where
  main : s.mainRoutineHasExited = true → s.main = .ended
  spawned : s.spawnedRoutineHasExited = true → s.spawned = .notSpawned ∨ s.spawned = .ended
  notSpawned : s.spawned = .notSpawned → s.spawnedRoutineHasExited = true
  early : early s.main = true → s.spawned = .notSpawned

/-- a routine that has ended has its flag set -/
structure Recorded (s : Routines) : Prop where
  main : s.main = .ended → s.mainRoutineHasExited = true
  spawned : s.spawned = .ended → s.spawnedRoutineHasExited = true

theorem init_sound : init.Sound := ⟨by decide, by decide, by decide, by decide⟩

theorem init_recorded : init.Recorded := ⟨by decide, by decide⟩

/-- what has ended stays as it is -/
theorem resumeMain_ended (h : s.main = .ended) (o : MainOutcome) : s.resumeMain o = s := by
  simp only [resumeMain, h]

theorem resumeSpawned_ended (h : s.spawned = .notSpawned ∨ s.spawned = .ended) (o : SpawnedOutcome) :
    s.resumeSpawned o = s := by
  rcases h with h | h
  · simp only [resumeSpawned, h]
  · simp only [resumeSpawned, h]

theorem resumeMain_created (h : s.main = .created) {o : MainOutcome} (ho : o.throws = true) :
    s.resumeMain o = { s with main := .ended } := by
  simp only [resumeMain, h, ho, if_true]

variable {t : Routines}

theorem Sound.proceeds (h : s.Sound) (hlive : s.main ≠ .ended) (hp : s.Proceeds t) : t.Sound where
  main ht := by
    rcases hp.main with hm | hm
    · exact hm.1
    · exact absurd (h.main (hm.2 ▸ ht)) hlive
  spawned ht := by
    rcases hp.spawned with ⟨hsame, hflag⟩ | ⟨-, -, hflag⟩
    · rw [hsame]
      exact h.spawned (hflag ▸ ht)
    · rw [hflag] at ht
      cases ht
  notSpawned ht := by
    rcases hp.spawned with ⟨hsame, hflag⟩ | ⟨-, hsame, -⟩
    · rw [hflag]
      exact h.notSpawned (hsame ▸ ht)
    · rw [hsame] at ht
      cases ht
  early ht := by
    obtain ⟨hs, hspawned⟩ := hp.early ht
    rw [hspawned]
    exact h.early hs

/-- a step of the second coroutine, which is neither waiting to be spawned nor at its end -/
theorem Sound.resumed (h : s.Sound) (hspawned : s.spawned ≠ .notSpawned) (hlive : s.spawned ≠ .ended)
    (hm : t.main = s.main ∧ t.mainRoutineHasExited = s.mainRoutineHasExited)
    (ht : t.spawned = .ended ∨ t.spawned ≠ .notSpawned ∧ t.spawnedRoutineHasExited = s.spawnedRoutineHasExited) :
    t.Sound where
  main hflag := by
    rw [hm.1]
    exact h.main (hm.2 ▸ hflag)
  spawned hflag := by
    rcases ht with ht | ht
    · exact Or.inr ht
    · exact absurd (h.spawned (ht.2 ▸ hflag)) (by simp [hspawned, hlive])
  notSpawned hnot := by
    rcases ht with ht | ht
    · rw [ht] at hnot
      cases hnot
    · exact absurd hnot ht.1
  early hearly := absurd (h.early (hm.1 ▸ hearly)) hspawned

theorem Loses.sound (hl : s.Loses t) (h : s.Sound) (hspawned : s.spawned ≠ .notSpawned) (hlive : s.spawned ≠ .ended) :
    t.Sound := h.resumed hspawned hlive hl.main (Or.inl hl.spawned.1)

theorem Sends.sound (hd : s.Sends t) (h : s.Sound) (hspawned : s.spawned ≠ .notSpawned) (hlive : s.spawned ≠ .ended) :
    t.Sound := by
  refine h.resumed hspawned hlive hd.main ?_
  rcases hd.spawned with hd | ⟨hd, hflag⟩
  · exact Or.inl hd.1
  · refine Or.inr ⟨?_, hflag⟩
    rcases hd with hd | hd
    · simp [hd]
    · simp [hd]

theorem step_sound (h : s.Sound) (o : Op) : (s.step o).Sound := by
  cases o with
  | timeout => exact ⟨h.main, h.spawned, h.notSpawned, h.early⟩
  | main o =>
    by_cases hend : s.main = .ended
    · rw [step, resumeMain_ended hend]
      exact h
    · by_cases hu : s.Unrecorded (.main o)
      · rw [step, resumeMain_created hu.1 hu.2]
        exact ⟨fun _ => rfl, h.spawned, h.notSpawned, by simp [early]⟩
      · exact h.proceeds hend (resumeMain_proceeds o hend hu)
  | spawned o =>
    by_cases hend : s.spawned = .notSpawned ∨ s.spawned = .ended
    · rw [step, resumeSpawned_ended hend]
      exact h
    · rw [not_or] at hend
      rcases resumeSpawned_cases o hend.1 hend.2 with hu | hu
      · exact hu.2.sound h hend.1 hend.2
      · exact hu.2.sound h hend.1 hend.2

/-! ## Ends that are not recorded -/

/-- a flag that is not set is not set by the end that leaves it as it is -/
theorem Sound.not_recorded_main (h : s.Sound) (hlive : s.main ≠ .ended) (ht : t.main = .ended)
    (hflag : t.mainRoutineHasExited = s.mainRoutineHasExited) : ¬ t.Recorded :=
  fun hr => hlive (h.main (hflag ▸ hr.main ht))

theorem Sound.not_recorded_spawned (h : s.Sound) (hspawned : s.spawned ≠ .notSpawned) (hlive : s.spawned ≠ .ended)
    (hl : s.Loses t) : ¬ t.Recorded :=
  fun hr => absurd (h.spawned (hl.spawned.2 ▸ hr.spawned hl.spawned.1)) (by simp [hspawned, hlive])

theorem Proceeds.recorded_iff (hp : s.Proceeds t) (h : s.Sound) (hlive : s.main ≠ .ended) :
    t.Recorded ↔ s.Recorded := by
  have hmain : t.main = .ended → t.mainRoutineHasExited = true := by
    intro ht
    rcases hp.main with hm | hm
    · exact hm.2
    · exact absurd ht hm.1
  rcases hp.spawned with ⟨hsame, hflag⟩ | ⟨hearly, hsame, -⟩
  · constructor
    · intro hr
      exact ⟨fun hs => absurd hs hlive, fun hs => hflag ▸ hr.spawned (hsame.trans hs)⟩
    · intro hr
      exact ⟨hmain, fun ht => hflag.trans (hr.spawned (hsame.symm.trans ht))⟩
  · refine iff_of_true ⟨hmain, fun ht => ?_⟩ ⟨fun hs => absurd hs hlive, fun hs => ?_⟩
    · rw [hsame] at ht
      cases ht
    · rw [h.early hearly] at hs
      cases hs

theorem Sends.recorded_iff (hd : s.Sends t) (hlive : s.spawned ≠ .ended) : t.Recorded ↔ s.Recorded := by
  have hspawned : t.spawned = .ended → t.spawnedRoutineHasExited = true := by
    intro ht
    rcases hd.spawned with hd | ⟨hd, -⟩
    · exact hd.2
    · simp [ht] at hd
  constructor
  · intro hr
    exact ⟨fun hs => hd.main.2 ▸ hr.main (hd.main.1.trans hs), fun hs => absurd hs hlive⟩
  · intro hr
    exact ⟨fun ht => hd.main.2.trans (hr.main (hd.main.1.symm.trans ht)), hspawned⟩

/-- **One step**: the ends of both routines are recorded afterwards exactly if they were before, and no routine ends
unrecorded in the step. -/
theorem step_recorded (h : s.Sound) (o : Op) : (s.step o).Recorded ↔ s.Recorded ∧ ¬ s.Unrecorded o := by
  cases o with
  | timeout => exact ⟨fun hr => ⟨⟨hr.main, hr.spawned⟩, id⟩, fun hr => ⟨hr.1.main, hr.1.spawned⟩⟩
  | main o =>
    by_cases hend : s.main = .ended
    · have hno : ¬ s.Unrecorded (.main o) := fun hu => by
        rw [hu.1] at hend
        cases hend
      rw [step, resumeMain_ended hend]
      exact (and_iff_left hno).symm
    · by_cases hu : s.Unrecorded (.main o)
      · rw [step, resumeMain_created hu.1 hu.2]
        exact iff_of_false (h.not_recorded_main hend rfl rfl) fun hr => hr.2 hu
      · rw [and_iff_left hu]
        exact (resumeMain_proceeds o hend hu).recorded_iff h hend
  | spawned o =>
    by_cases hend : s.spawned = .notSpawned ∨ s.spawned = .ended
    · have hno : ¬ s.Unrecorded (.spawned o) := by
        rcases hend with hend | hend
        · simp [Unrecorded, Selects, hend]
        · simp [Unrecorded, Selects, hend]
      rw [step, resumeSpawned_ended hend]
      exact (and_iff_left hno).symm
    · rw [not_or] at hend
      rcases resumeSpawned_cases o hend.1 hend.2 with hu | hu
      · exact iff_of_false (h.not_recorded_spawned hend.1 hend.2 hu.2) fun hr => hr.2 hu.1
      · rw [and_iff_left hu.1]
        exact hu.2.recorded_iff hend.2

/-! ## Runs -/

theorem run_sound (ops : List Op) : (run ops).Sound := by
  have hstep : ∀ s o, Sound s → Sound (step s o) := fun _ o h => step_sound h o
  exact foldl_inv hstep init_sound ops

theorem run_recorded (ops : List Op) : (run ops).Recorded ↔ Along step (fun s o => ¬ s.Unrecorded o) init ops :=
  (foldl_iff_along_of (J := Sound) (I := Recorded) (fun _ o h => step_sound h o) (fun _ o h => step_recorded h o)
    init_sound).trans (and_iff_right init_recorded)

theorem Sound.ended (h : s.Sound) (hs : s.hasExited = true) : s.Ended := by
  rw [hasExited, Bool.and_eq_true] at hs
  exact ⟨h.main hs.1, h.spawned hs.2⟩

theorem Ended.resume (h : s.Ended) : (∀ o, s.resumeMain o = s) ∧ ∀ o, s.resumeSpawned o = s :=
  ⟨resumeMain_ended h.1, resumeSpawned_ended h.2⟩

theorem Sound.hasExited_iff (h : s.Sound) (hs : s.Ended) : s.hasExited = true ↔ s.Recorded := by
  rw [hasExited, Bool.and_eq_true]
  constructor
  · intro hflags
    exact ⟨fun _ => hflags.1, fun _ => hflags.2⟩
  · intro hr
    refine ⟨hr.main hs.1, ?_⟩
    rcases hs.2 with hs | hs
    · exact h.notSpawned hs
    · exact hr.spawned hs

/-- what has ended is not changed by any later step but for its wish to go on -/
theorem step_of_ended (h : s.Ended) (o : Op) : (s.step o).Ended ∧ (s.step o).hasExited = s.hasExited := by
  cases o with
  | main o =>
    rw [step, h.resume.1]
    exact ⟨h, rfl⟩
  | spawned o =>
    rw [step, h.resume.2]
    exact ⟨h, rfl⟩
  | timeout => exact ⟨h, rfl⟩

/-- **A slot that leaks.** A peer whose routines have ended unrecorded never says that it has exited. -/
theorem never_reclaimed (ops more : List Op) (hend : (run ops).Ended) (hexit : (run ops).hasExited = false) :
    (run (ops ++ more)).Ended ∧ (run (ops ++ more)).hasExited = false := by
  rw [run, List.foldl_append, ← run]
  have hstep : ∀ s o, Ended s ∧ s.hasExited = false → Ended (step s o) ∧ (step s o).hasExited = false := by
    intro s o hs
    obtain ⟨hend, hexit⟩ := step_of_ended hs.1 o
    exact ⟨hend, hexit.trans hs.2⟩
  exact foldl_inv hstep ⟨hend, hexit⟩ more

/-- **When a peer can be reclaimed.** A peer that says it has exited is not resumed any more. One that is not resumed any
more says so exactly if none of its routines has ended unrecorded. -/
theorem reclaim_iff (ops : List Op) :
    ((run ops).hasExited = true → (run ops).Ended ∧ (∀ o, (run ops).resumeMain o = run ops) ∧
      ∀ o, (run ops).resumeSpawned o = run ops) ∧
    ((run ops).Ended → ((run ops).hasExited = true ↔ Along step (fun s o => ¬ s.Unrecorded o) init ops)) := by
  have hsound := run_sound ops
  refine ⟨?_, ?_⟩
  · intro hexit
    have hend := hsound.ended hexit
    exact ⟨hend, hend.resume⟩
  · intro hend
    rw [hsound.hasExited_iff hend, run_recorded]

/-- what a coroutine of the run below has awaited has come, or has thrown -/
def came : MainOutcome := ⟨false, true, 1, 1⟩

def failed : MainOutcome := ⟨true, true, 0, 0⟩

/-- the peer unchokes us, the piece manager throws in the first request step, and the connection is closed -/
def lostSelection : List Op :=
  List.replicate 5 (.main came) ++ [.main came, .main came, .main came, .spawned ⟨false, .throws⟩, .main failed]

/-- the peer has ended, and does not say so -/
theorem lost_selection : (run lostSelection).Ended ∧ (run lostSelection).hasExited = false := by
  refine ⟨⟨?_, Or.inr ?_⟩, ?_⟩ <;> decide

end SimpleTorrent.Routines
