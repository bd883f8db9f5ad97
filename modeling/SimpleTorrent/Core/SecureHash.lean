/-
SHA-1, as the standard describes it.

A message is padded to whole blocks of 64 bytes: a one bit, zeros, and the length in bits as a 64-bit number. Each block
is read as sixteen words, extended to a schedule of eighty, and compressed into five chaining words by eighty rounds.

- `ofOctets_octets`, `octets_add`: numbers as big-endian bytes.
- `schedule_congr`: the schedule depends on the sixteen words of the block only.
- `zeros_add`: whole blocks in front of a message do not change the number of its padding zeros.

Nothing here refers to a particular program.
-/
import SimpleTorrent.Core.Chaining

namespace SimpleTorrent.SecureHash

/-! ## Big-endian numbers -/

/-- the `k` low-order bytes of a number, most significant first -/
def octets : ℕ → ℕ → List UInt8
  | 0, _ => []
  | k + 1, n => octets k (n / 256) ++ [UInt8.ofNat n]

def ofOctets (bytes : List UInt8) : ℕ := bytes.foldl (fun n b => 256 * n + b.toNat) 0

@[simp] theorem length_octets (k n : ℕ) : (octets k n).length = k := by
  induction k generalizing n with
  | zero => rfl
  | succ k ih => rw [octets, List.length_append, ih, List.length_singleton]

theorem ofOctets_octets (k n : ℕ) : ofOctets (octets k n) = n % 256 ^ k := by
  induction k generalizing n with
  | zero => rw [pow_zero, Nat.mod_one]; rfl
  | succ k ih =>
    have hb : (UInt8.ofNat n).toNat = n % 256 := UInt8.toNat_ofNat'
    rw [octets, ofOctets, List.foldl_append]
    change 256 * ofOctets (octets k (n / 256)) + (UInt8.ofNat n).toNat = _
    rw [ih, hb, pow_succ', Nat.mod_mul, add_comm]

theorem octets_add (j k n : ℕ) : octets (j + k) n = octets j (n / 256 ^ k) ++ octets k n := by
  induction k generalizing n with
  | zero => rw [pow_zero, Nat.div_one, octets, List.append_nil, Nat.add_zero]
  | succ k ih => rw [← Nat.add_assoc, octets, ih, octets, Nat.div_div_eq_div_mul, pow_succ', List.append_assoc]

/-! ## Words, schedule and rounds -/

/-- the rotation of a word to the left -/
def rotl (x n : UInt32) : UInt32 := (x <<< n) ||| (x >>> (32 - n))

/-- a bit of `y` where the bit of `x` is set, and of `z` where it is not -/
def ch (x y z : UInt32) : UInt32 := (x &&& y) ^^^ (~~~x &&& z)

def parity (x y z : UInt32) : UInt32 := x ^^^ y ^^^ z

/-- the bit that at least two of the three words have -/
def maj (x y z : UInt32) : UInt32 := (x &&& y) ^^^ (x &&& z) ^^^ (y &&& z)

/-- the function of a round -/
def roundFunction (t : ℕ) : UInt32 → UInt32 → UInt32 → UInt32 :=
  if t < 20 then ch else if t < 40 then parity else if t < 60 then maj else parity

/-- the constant of a round -/
def roundConstant (t : ℕ) : UInt32 :=
  if t < 20 then 0x5a827999 else if t < 40 then 0x6ed9eba1 else if t < 60 then 0x8f1bbcdc else 0xca62c1d6

/-- the sixteen words of a block, big-endian -/
def words (block : List UInt8) (i : ℕ) : UInt32 := UInt32.ofNat (ofOctets ((block.drop (4 * i)).take 4))

/-- the schedule: the words of the block, and from the sixteenth on a rotation of four earlier entries -/
def schedule (M : ℕ → UInt32) (t : ℕ) : UInt32 :=
  if _h : t < 16 then M t
  else rotl (schedule M (t - 3) ^^^ schedule M (t - 8) ^^^ schedule M (t - 14) ^^^ schedule M (t - 16)) 1
termination_by t
decreasing_by all_goals omega

/-- five words: the chaining value, and the working variables of the rounds -/
@[ext] structure Words where
  a : UInt32
  b : UInt32
  c : UInt32
  d : UInt32
  e : UInt32
deriving DecidableEq, Repr

/-- one round, with its function, its constant and its entry of the schedule -/
def round (f : UInt32 → UInt32 → UInt32 → UInt32) (k w : UInt32) (s : Words) : Words :=
  ⟨rotl s.a 5 + f s.b s.c s.d + s.e + k + w, s.a, rotl s.b 30, s.c, s.d⟩

/-- the first `n` rounds -/
def rounds (W : ℕ → UInt32) (s : Words) : ℕ → Words
  | 0 => s
  | t + 1 => round (roundFunction t) (roundConstant t) (W t) (rounds W s t)

def Words.add (s s' : Words) : Words := ⟨s.a + s'.a, s.b + s'.b, s.c + s'.c, s.d + s'.d, s.e + s'.e⟩

/-- eighty rounds over the schedule of sixteen words, added to the chaining value -/
def compressWords (h : Words) (M : ℕ → UInt32) : Words := h.add (rounds (schedule M) h 80)

def compress (h : Words) (block : List UInt8) : Words := compressWords h (words block)

theorem schedule_lt {M : ℕ → UInt32} {t : ℕ} (h : t < 16) : schedule M t = M t := by
  rw [schedule, dif_pos h]

theorem schedule_ge {M : ℕ → UInt32} {t : ℕ} (h : 16 ≤ t) :
    schedule M t =
      rotl (schedule M (t - 3) ^^^ schedule M (t - 8) ^^^ schedule M (t - 14) ^^^ schedule M (t - 16)) 1 := by
  rw [schedule, dif_neg (by omega)]

/-- the schedule depends on the words of the block only -/
theorem schedule_congr {M M' : ℕ → UInt32} (h : ∀ i < 16, M i = M' i) : schedule M = schedule M' := by
  funext t
  induction t using Nat.strong_induction_on with
  | _ t ih =>
    rcases Nat.lt_or_ge t 16 with ht | ht
    · rw [schedule_lt ht, schedule_lt ht, h t ht]
    · rw [schedule_ge ht, schedule_ge ht, ih _ (by omega), ih _ (by omega), ih _ (by omega), ih _ (by omega)]

theorem compressWords_congr {M M' : ℕ → UInt32} (h : Words) (hM : ∀ i < 16, M i = M' i) :
    compressWords h M = compressWords h M' := by
  rw [compressWords, schedule_congr hM, compressWords]

/-! ## Words of a block in parts -/

section Parts

variable {front : List UInt8} (back : List UInt8)

theorem words_append_left {i : ℕ} (h : 4 * i + 4 ≤ front.length) : words (front ++ back) i = words front i := by
  rw [words, words, List.drop_append_of_le_length (by omega), List.take_append_of_le_length]
  rw [List.length_drop]
  omega

theorem words_append_right {k : ℕ} (h : front.length = 4 * k) (i : ℕ) :
    words (front ++ back) (k + i) = words back i := by
  rw [words, words, Nat.mul_add, ← h, List.drop_length_add_append]

/-- a number written as four bytes is read back as a word -/
theorem words_octets (n : ℕ) : words (octets 4 n) 0 = UInt32.ofNat n := by
  have htake : ((octets 4 n).drop (4 * 0)).take 4 = octets 4 n := List.take_of_length_le (length_octets 4 n).le
  rw [words, htake, ofOctets_octets]
  exact UInt32.ofNat_mod_size

end Parts

/-! ## Padding and the digest -/

/-- the zeros between the one bit and the length -/
def zeros (length : ℕ) : ℕ := (119 - length % 64) % 64

/-- what is put behind a message of some length -/
def padding (length : ℕ) : List UInt8 := 0x80 :: (List.replicate (zeros length) 0 ++ octets 8 (8 * length))

def pad (message : List UInt8) : List UInt8 := message ++ padding message.length

/-- the zeros depend on the part of the message behind its whole blocks only -/
theorem zeros_add {k : ℕ} (hk : k % 64 = 0) (n : ℕ) : zeros (k + n) = zeros n := by
  rw [zeros, zeros, Nat.add_mod, hk, Nat.zero_add, Nat.mod_mod]

def initial : Words := ⟨0x67452301, 0xefcdab89, 0x98badcfe, 0x10325476, 0xc3d2e1f0⟩

/-- the five chaining words as twenty bytes -/
def digest (h : Words) : List UInt8 :=
  octets 4 h.a.toNat ++ octets 4 h.b.toNat ++ octets 4 h.c.toNat ++ octets 4 h.d.toNat ++ octets 4 h.e.toNat

/-- the hash of a message -/
def sha1 (message : List UInt8) : List UInt8 := digest (Chaining.chain 64 compress initial (pad message))

end SimpleTorrent.SecureHash
