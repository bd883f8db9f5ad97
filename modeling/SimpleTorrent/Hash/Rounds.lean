/-
The unrolled `transform` refines the compression of the standard.

The source never moves a value from one working variable to the next: each call names the variables in rotated order,
updates two of them, and overwrites one entry of a ring of sixteen words. After `t` calls the variable that plays the
part of the standard's `j`-th working word is `role t j`, and entry `u % 16` of the ring is `W_u` for the last sixteen
`u` (`Simulates`).

- `calls_eq`: the eighty calls as written follow that pattern.
- `op_eq`: each operation is the standard's round, whatever the form of its bit functions.
- `row_simulates`: one call keeps the relation; `foldl_rows`: all eighty do.
- `transform_eq`: the digest `transform` leaves is the compressed one.
- `get_bufferToBlock`: the words of a full buffer are the standard's words of its bytes.
-/
import SimpleTorrent.Core.SecureHash
import SimpleTorrent.Model.Sha1

namespace SimpleTorrent.Sha1

open SecureHash (Words rounds schedule roundFunction roundConstant)

/-! ## Bit functions -/

theorem rol_eq (value bits : UInt32) : rol value bits = SecureHash.rotl value bits := rfl

/-- the choice in `R0` and `R1`: without the complement -/
theorem choice_eq (x y z : UInt32) : (x &&& (y ^^^ z)) ^^^ z = SecureHash.ch x y z := by
  rw [SecureHash.ch, ← UInt32.toBitVec_inj]
  apply BitVec.eq_of_getLsbD_eq
  intro i hi
  simp only [UInt32.toBitVec_xor, UInt32.toBitVec_and, UInt32.toBitVec_not, BitVec.getLsbD_xor, BitVec.getLsbD_and,
    BitVec.getLsbD_not, hi, decide_true, Bool.true_and]
  cases x.toBitVec.getLsbD i <;> cases y.toBitVec.getLsbD i <;> cases z.toBitVec.getLsbD i <;> rfl

/-- the majority in `R3`: with disjunctions for sums -/
theorem majority_eq (x y z : UInt32) : ((x ||| y) &&& z) ||| (x &&& y) = SecureHash.maj x y z := by
  rw [SecureHash.maj, ← UInt32.toBitVec_inj]
  apply BitVec.eq_of_getLsbD_eq
  intro i hi
  simp only [UInt32.toBitVec_xor, UInt32.toBitVec_and, UInt32.toBitVec_or, BitVec.getLsbD_xor, BitVec.getLsbD_and,
    BitVec.getLsbD_or]
  cases x.toBitVec.getLsbD i <;> cases y.toBitVec.getLsbD i <;> cases z.toBitVec.getLsbD i <;> rfl

/-! ## Words of the buffer -/

theorem or_shifted {low k : ℕ} (h : low < 2 ^ k) (high : ℕ) : low ||| high * 2 ^ k = 2 ^ k * high + low := by
  rw [Nat.mul_comm, Nat.or_comm, Nat.two_pow_add_eq_or_of_lt h]

/-- four bytes shifted into place make the number they spell -/
theorem word_eq (a b c d : UInt8) :
    d.toUInt32 ||| c.toUInt32 <<< 8 ||| b.toUInt32 <<< 16 ||| a.toUInt32 <<< 24 =
      UInt32.ofNat (256 * (256 * (256 * a.toNat + b.toNat) + c.toNat) + d.toNat) := by
  have ha := a.toNat_lt
  have hb := b.toNat_lt
  have hc := c.toNat_lt
  have hd := d.toNat_lt
  have hor : d.toNat ||| c.toNat * 2 ^ 8 ||| b.toNat * 2 ^ 16 ||| a.toNat * 2 ^ 24 =
      256 * (256 * (256 * a.toNat + b.toNat) + c.toNat) + d.toNat := by
    rw [or_shifted hd, or_shifted (k := 16) (by omega), or_shifted (k := 24) (by omega)]
    ring
  have h8 : c.toNat * 2 ^ 8 % 2 ^ 32 = c.toNat * 2 ^ 8 := Nat.mod_eq_of_lt (by omega)
  have h16 : b.toNat * 2 ^ 16 % 2 ^ 32 = b.toNat * 2 ^ 16 := Nat.mod_eq_of_lt (by omega)
  have h24 : a.toNat * 2 ^ 24 % 2 ^ 32 = a.toNat * 2 ^ 24 := Nat.mod_eq_of_lt (by omega)
  have e8 : (8 : UInt32).toNat % 32 = 8 := rfl
  have e16 : (16 : UInt32).toNat % 32 = 16 := rfl
  have e24 : (24 : UInt32).toNat % 32 = 24 := rfl
  apply UInt32.toNat_inj.1
  simp only [UInt32.toNat_or, UInt32.toNat_shiftLeft, UInt8.toNat_toUInt32, Nat.shiftLeft_eq, e8, e16, e24, h8, h16, h24]
  rw [hor, UInt32.toNat_ofNat', Nat.mod_eq_of_lt (by omega)]

theorem get_ofFn (f : Fin 16 → UInt32) (i : Fin 16) : (Vector.ofFn f).get i = f i := Vector.getElem_ofFn i.isLt

theorem get_put_self (block : Block) (i : Fin 16) (value : UInt32) : (block.put i value).get i = value :=
  Vector.getElem_set_self i.isLt

theorem get_put_of_ne (block : Block) {i j : Fin 16} (value : UInt32) (h : j ≠ i) :
    (block.put i value).get j = block.get j :=
  Vector.getElem_set_ne i.isLt j.isLt fun hij => h (Fin.ext hij.symm)

theorem get_bufferToBlock {buffer : Bytes} (full : buffer.length = BLOCK_BYTES) (i : Fin 16) :
    (bufferToBlock buffer full).get i = SecureHash.words buffer i := by
  have hlen : buffer.length = 64 := full
  have hi := i.isLt
  have htake : (buffer.drop (4 * i.val)).take 4 =
      [buffer.get ⟨4 * i.val + (0 : Fin 4).val, index_lt full i 0⟩,
        buffer.get ⟨4 * i.val + (1 : Fin 4).val, index_lt full i 1⟩,
        buffer.get ⟨4 * i.val + (2 : Fin 4).val, index_lt full i 2⟩,
        buffer.get ⟨4 * i.val + (3 : Fin 4).val, index_lt full i 3⟩] := by
    apply List.ext_getElem
    · simp only [List.length_take, List.length_drop, List.length_cons, List.length_nil]
      omega
    · intro k _ hk
      simp only [List.length_cons, List.length_nil] at hk
      interval_cases k <;> simp
  rw [SecureHash.words, htake, bufferToBlock, get_ofFn, word_eq]
  simp [SecureHash.ofOctets]

/-! ## Variables in rotated order -/

theorem get_set_self (l : Locals) (value : UInt32) (x : Variable) : (l.set value x).get x = value := by
  cases x <;> rfl

theorem get_set_of_ne (l : Locals) (value : UInt32) {x y : Variable} (h : y ≠ x) : (l.set value x).get y = l.get y := by
  cases x <;> cases y <;> first | rfl | exact absurd rfl h

def variableAt (j : ℕ) : Variable :=
  match j % 5 with
  | 0 => .a
  | 1 => .b
  | 2 => .c
  | 3 => .d
  | _ => .e

/-- the variable that plays the part of the `j`-th working word after `t` calls -/
def role (t j : ℕ) : Variable := variableAt (j + 4 * t)

/-- a call later every word is found one variable further -/
theorem role_succ (t j : ℕ) : role (t + 1) (j + 1) = role t j := by
  rw [role, role, variableAt, variableAt, show j + 1 + 4 * (t + 1) = j + 4 * t + 5 by ring, Nat.add_mod_right]

theorem role_succ_zero (t : ℕ) : role (t + 1) 0 = role t 4 := by
  rw [role, role, variableAt, variableAt, show 0 + 4 * (t + 1) = 4 + 4 * t by ring]

/-- the five parts are played by different variables -/
theorem role_ne (t j j' : ℕ) (hj : j < 5) (hj' : j' < 5) (h : j ≠ j') : role t j ≠ role t j' := by
  have hmod : (j + 4 * t) % 5 ≠ (j' + 4 * t) % 5 := by omega
  have h1 := Nat.mod_lt (j + 4 * t) (by decide : 5 > 0)
  have h2 := Nat.mod_lt (j' + 4 * t) (by decide : 5 > 0)
  rw [role, role, variableAt, variableAt]
  generalize (j + 4 * t) % 5 = x at *
  generalize (j' + 4 * t) % 5 = y at *
  interval_cases x <;> interval_cases y <;> first | exact absurd rfl hmod | simp

/-- the working words after `t` calls -/
def working (t : ℕ) (l : Locals) : Words :=
  ⟨l.get (role t 0), l.get (role t 1), l.get (role t 2), l.get (role t 3), l.get (role t 4)⟩

/-! ## The pattern of the calls -/

/-- the operation of call `t` -/
def op (t : ℕ) : Block → UInt32 → UInt32 → UInt32 → UInt32 → UInt32 → Fin 16 → Result :=
  if t < 16 then R0 else if t < 20 then R1 else if t < 40 then R2 else if t < 60 then R3 else R4

def row (t : ℕ) : Locals × Block → Locals × Block :=
  call (op t) (role t 0) (role t 1) (role t 2) (role t 3) (role t 4) (index t)

theorem calls_eq : calls = (List.range 80).map row := rfl

/-- the block as call `t` uses it: from the sixteenth call on, its entry is extended first -/
def extended (t : ℕ) (block : Block) : Block :=
  if t < 16 then block else block.put (index t) (blk block (index t))

/-- every operation is a round with the function and the constant of its number -/
theorem op_eq {t : ℕ} (ht : t < 80) (block : Block) (v w x y z : UInt32) :
    op t block v w x y z (index t) =
      ⟨extended t block, SecureHash.rotl w 30,
        SecureHash.rotl v 5 + roundFunction t w x y + z + roundConstant t + (extended t block).get (index t)⟩ := by
  have hsum : ∀ f k w' r : UInt32, z + (f + w' + k + r) = r + f + z + k + w' := by
    intro f k w' r
    ac_rfl
  by_cases h16 : t < 16
  · have h20 : t < 20 := by omega
    simp only [op, extended, roundFunction, roundConstant, h16, h20, if_true, R0, operation, choice_eq, rol_eq, hsum]
  by_cases h20 : t < 20
  · simp only [op, extended, roundFunction, roundConstant, h16, h20, if_true, if_false, R1, operation, choice_eq,
      rol_eq, hsum]
  by_cases h40 : t < 40
  · simp only [op, extended, roundFunction, roundConstant, h16, h20, h40, if_true, if_false, R2, operation,
      SecureHash.parity, rol_eq, hsum]
  by_cases h60 : t < 60
  · simp only [op, extended, roundFunction, roundConstant, h16, h20, h40, h60, if_true, if_false, R3, operation,
      majority_eq, rol_eq, hsum]
  · simp only [op, extended, roundFunction, roundConstant, h16, h20, h40, h60, if_false, R4, operation,
      SecureHash.parity, rol_eq, hsum]

/-! ## The simulation -/

/-- the words of a block -/
def wordsOf (block : Block) (i : ℕ) : UInt32 := block.get (index i)

/-- entry `u % 16` of the ring is `W_u`, for the last sixteen entries of the schedule -/
def Window (M : ℕ → UInt32) (t : ℕ) (block : Block) : Prop :=
  ∀ u, u < max t 16 → t ≤ u + 16 → block.get (index u) = schedule M u

structure Simulates (M : ℕ → UInt32) (h : Words) (t : ℕ) (s : Locals × Block) : Prop where
  locals : working t s.1 = rounds (schedule M) h t
  window : Window M t s.2

variable {M : ℕ → UInt32} {h : Words}

/-- the entry of the ring that is `k` behind -/
theorem ring_index {t k : ℕ} (hk : k ≤ 16) (ht : 16 ≤ t) :
    index t + index (16 - k) = index (t - k) := by
  apply Fin.ext
  simp only [index, Fin.ofNat, Fin.val_add]
  omega

theorem blk_eq {t : ℕ} {block : Block} (hw : Window M t block) (ht : 16 ≤ t) :
    blk block (index t) = schedule M t := by
  have h3 : block.get (index t + 13) = schedule M (t - 3) := by
    rw [show index t + 13 = index (t - 3) from ring_index (k := 3) (by decide) ht]
    exact hw _ (by omega) (by omega)
  have h8 : block.get (index t + 8) = schedule M (t - 8) := by
    rw [show index t + 8 = index (t - 8) from ring_index (k := 8) (by decide) ht]
    exact hw _ (by omega) (by omega)
  have h14 : block.get (index t + 2) = schedule M (t - 14) := by
    rw [show index t + 2 = index (t - 14) from ring_index (k := 14) (by decide) ht]
    exact hw _ (by omega) (by omega)
  have h16 : block.get (index t) = schedule M (t - 16) := by
    have hidx : index t = index (t - 16) := by
      apply Fin.ext
      simp only [index, Fin.ofNat]
      omega
    rw [hidx]
    exact hw _ (by omega) (by omega)
  rw [blk, h3, h8, h14, h16, SecureHash.schedule_ge ht, rol_eq]

/-- the entry a call uses is the one of its number, and the ring moves on by one -/
theorem extended_window {t : ℕ} {block : Block} (hw : Window M t block) :
    (extended t block).get (index t) = schedule M t ∧ Window M (t + 1) (extended t block) := by
  by_cases ht : t < 16
  · rw [extended, if_pos ht]
    refine ⟨hw t (by omega) (by omega), ?_⟩
    intro u hu htu
    exact hw u (by omega) (by omega)
  · rw [extended, if_neg ht, blk_eq hw (by omega)]
    refine ⟨get_put_self _ _ _, ?_⟩
    intro u hu htu
    by_cases hut : u = t
    · rw [hut, get_put_self]
    · have hne : index u ≠ index t := by
        rw [Ne, Fin.ext_iff]
        simp only [index, Fin.ofNat]
        omega
      rw [get_put_of_ne _ _ hne]
      exact hw u (by omega) (by omega)

/-- **One call.** It is one round of the standard on the working words, and moves the ring on. -/
theorem row_simulates {t : ℕ} (ht : t < 80) {s : Locals × Block} (hs : Simulates M h t s) :
    Simulates M h (t + 1) (row t s) := by
  obtain ⟨hentry, hwindow⟩ := extended_window hs.window
  have hrow : row t s =
      (((s.1.set (SecureHash.rotl (working t s.1).a 5 + roundFunction t (working t s.1).b (working t s.1).c
        (working t s.1).d + (working t s.1).e + roundConstant t + schedule M t) (role t 4)).set
          (SecureHash.rotl (working t s.1).b 30) (role t 1)), extended t s.2) := by
    rw [row, call, op_eq ht, hentry]
    rfl
  have n01 := role_ne t 0 1 (by decide) (by decide) (by decide)
  have n04 := role_ne t 0 4 (by decide) (by decide) (by decide)
  have n21 := role_ne t 2 1 (by decide) (by decide) (by decide)
  have n24 := role_ne t 2 4 (by decide) (by decide) (by decide)
  have n31 := role_ne t 3 1 (by decide) (by decide) (by decide)
  have n34 := role_ne t 3 4 (by decide) (by decide) (by decide)
  have n41 := role_ne t 4 1 (by decide) (by decide) (by decide)
  refine ⟨?_, by rw [hrow]; exact hwindow⟩
  rw [rounds, ← hs.locals, hrow, working, role_succ_zero, role_succ, role_succ, role_succ, role_succ]
  rw [get_set_of_ne _ _ n41, get_set_self, get_set_of_ne _ _ n01, get_set_of_ne _ _ n04, get_set_self,
    get_set_of_ne _ _ n21, get_set_of_ne _ _ n24, get_set_of_ne _ _ n31, get_set_of_ne _ _ n34]
  rfl

/-- **All calls** -/
theorem foldl_rows {s : Locals × Block} (hs : Simulates M h 0 s) {n : ℕ} (hn : n ≤ 80) :
    Simulates M h n (((List.range n).map row).foldl (fun s f => f s) s) := by
  induction n with
  | zero => exact hs
  | succ n ih =>
    rw [List.range_succ, List.map_append, List.foldl_append]
    exact row_simulates (by omega) (ih (by omega))

/-- the five words of a digest -/
def wordsOfDigest (digest : Digest) : Words :=
  let l := Locals.ofDigest digest
  ⟨l.a, l.b, l.c, l.d, l.e⟩

/-- **`transform` compresses.** -/
theorem transform_eq (digest : Digest) (block : Block) :
    wordsOfDigest (transform digest block).1 = SecureHash.compressWords (wordsOfDigest digest) (wordsOf block) := by
  have hstart : Simulates (wordsOf block) (wordsOfDigest digest) 0
      (.ofDigest digest, block) := by
    refine ⟨rfl, ?_⟩
    intro u hu _
    rw [SecureHash.schedule_lt (by omega)]
    rfl
  have hend := foldl_rows hstart (le_refl 80)
  rw [← calls_eq] at hend
  rw [SecureHash.compressWords, ← hend.locals]
  rfl

theorem wordsOf_bufferToBlock {buffer : Bytes} (full : buffer.length = BLOCK_BYTES) {i : ℕ} (hi : i < 16) :
    wordsOf (bufferToBlock buffer full) i = SecureHash.words buffer i := by
  have hidx : (index i).val = i := Nat.mod_eq_of_lt hi
  rw [wordsOf, get_bufferToBlock, hidx]

theorem transform_bufferToBlock (digest : Digest) {buffer : Bytes} (full : buffer.length = BLOCK_BYTES) :
    wordsOfDigest (transform digest (bufferToBlock buffer full)).1 =
      SecureHash.compress (wordsOfDigest digest) buffer := by
  rw [transform_eq, SecureHash.compress]
  exact SecureHash.compressWords_congr _ fun i hi => wordsOf_bufferToBlock full hi

end SimpleTorrent.Sha1
