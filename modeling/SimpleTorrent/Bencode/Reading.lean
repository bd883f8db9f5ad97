/-
What the decoder reads.

- `decodeInt_eq_ok`, `decodeStr_eq_ok`: numbers and strings, as texts of numerals within their limits.
- `step_sound`: what a turn of the loop has read of the open lists and dictionaries; `decode_sound`: a value that is
  decoded has an accepted spelling at the start of the text.
- `decode_complete`: every accepted spelling is decoded to its value, whatever follows.
- `decode_encode`: what was encoded is decoded to the value it was made of.
-/
import SimpleTorrent.Bencode.Spelling

namespace SimpleTorrent.Bencode

open Checked Decimal

/-! ## Digits -/

section Digits

variable {limits : NumericLimits} {sgn v : ℤ} {s rest : Bytes}

/-- the number so far, with more digits behind it -/
def continued (m : ℕ) (ds : Bytes) : ℕ := ds.foldl (fun n b => 10 * n + (b.toNat - 48)) m

/-- the checks leave out just the values that are too large or too small -/
theorem checkOverUnderflow_eq_ok (hsgn : sgn = 1 ∨ sgn = -1) (hmin : limits.min ≤ 0) (hmax : 0 ≤ limits.max) {m d : ℕ}
    (hd : d ≤ 9) : checkOverUnderflow limits (sgn * m) (sgn * d) sgn = .ok () ↔
      limits.min ≤ sgn * (10 * m + d : ℕ) ∧ sgn * (10 * m + d : ℕ) ≤ limits.max := by
  rcases hsgn with rfl | rfl
  · rw [checkOverUnderflow, if_pos rfl, checkOverflow]
    split_ifs with h
    · refine iff_of_false (by simp) ?_
      push_cast
      omega
    · refine iff_of_true rfl ?_
      push_cast
      omega
  · obtain ⟨k, hk⟩ : ∃ k : ℕ, limits.min = -(k : ℤ) := ⟨(-limits.min).toNat, by omega⟩
    have hdiv : limits.min.tdiv 10 = -((k / 10 : ℕ) : ℤ) := by
      rw [hk, Int.neg_tdiv, Int.tdiv_eq_ediv_of_nonneg (Int.natCast_nonneg k)]
      rfl
    have hmod : limits.min.tmod 10 = -((k % 10 : ℕ) : ℤ) := by
      rw [hk, Int.neg_tmod, Int.tmod_eq_emod_of_nonneg (Int.natCast_nonneg k)]
      rfl
    rw [checkOverUnderflow, if_neg (by decide), checkUnderflow, hdiv, hmod]
    split_ifs with h
    · refine iff_of_false (by simp) ?_
      push_cast
      omega
    · refine iff_of_true rfl ?_
      push_cast
      omega

/-- what `decode_digits` reads behind a number: more digits, up to the first byte that is none; at most one more than its
loop takes, and that one is checked -/
structure Reads (limits : NumericLimits) (sgn : ℤ) (i m : ℕ) (ds rest : Bytes) (v : ℤ) : Prop where
  isDigit : ∀ b ∈ ds, isDigit b = true
  stop : startsWithDigit rest = false
  length : ds.length ≤ i + 1
  end_of_input : rest = [] → ds.length = i + 1
  range : ds.length = i + 1 → limits.min ≤ v ∧ v ≤ limits.max
  value : v = sgn * continued m ds

variable {i m : ℕ} {b : UInt8} {ds : Bytes}

theorem reads_nil_iff : Reads limits sgn i m [] rest v ↔ startsWithDigit rest = false ∧ rest ≠ [] ∧ v = sgn * m := by
  constructor
  · intro h
    exact ⟨h.stop, fun hrest => Nat.succ_ne_zero i (h.end_of_input hrest).symm, h.value⟩
  · intro h
    obtain ⟨hstop, hrest, hv⟩ := h
    exact ⟨by simp, hstop, Nat.zero_le _, fun h => absurd h hrest, fun h => absurd h (Nat.succ_ne_zero i).symm, hv⟩

theorem reads_cons_iff (hb : Decimal.isDigit b = true) : Reads limits sgn (i + 1) m (b :: ds) rest v ↔
    Reads limits sgn i (10 * m + (b.toNat - 48)) ds rest v := by
  constructor
  · intro h
    exact ⟨fun c hc => h.isDigit c (List.mem_cons_of_mem b hc), h.stop, Nat.le_of_succ_le_succ h.length,
      fun hrest => Nat.succ.inj (h.end_of_input hrest), fun hlen => h.range (congrArg (· + 1) hlen), h.value⟩
  · intro h
    exact ⟨List.forall_mem_cons.2 ⟨hb, h.isDigit⟩, h.stop, Nat.succ_le_succ h.length,
      fun hrest => congrArg (· + 1) (h.end_of_input hrest), fun hlen => h.range (Nat.succ.inj hlen), h.value⟩

/-- the digits that are read start as the text does -/
theorem Reads.eq_cons (h : Reads limits sgn i m ds rest v) (hb : Decimal.isDigit b = true) (hs : b :: s = ds ++ rest) :
    ∃ ds', ds = b :: ds' ∧ s = ds' ++ rest := by
  cases ds with
  | nil =>
    rw [List.nil_append] at hs
    rw [← hs] at h
    exact absurd hb (by simpa [startsWithDigit] using h.stop)
  | cons c ds =>
    rw [List.cons_append, List.cons.injEq] at hs
    exact ⟨ds, by rw [hs.1], hs.2⟩

theorem Reads.eq_nil (h : Reads limits sgn i m ds rest v) (hb : ¬ Decimal.isDigit b = true) (hs : b :: s = ds ++ rest) :
    ds = [] := by
  cases ds with
  | nil => rfl
  | cons c ds =>
    rw [List.cons_append, List.cons.injEq] at hs
    exact absurd (h.isDigit b (hs.1 ▸ List.mem_cons_self)) hb

/-- the digit with the sign of the number -/
theorem digit_mul_sgn (hb : Decimal.isDigit b = true) : ((b.toNat : ℤ) - 48) * sgn = sgn * (b.toNat - 48 : ℕ) := by
  rw [Int.mul_comm, Int.natCast_sub (toNat_digit hb).1]
  rfl

/-- the number with one more digit -/
theorem number_mul_ten (m d : ℕ) : sgn * (m : ℤ) * 10 + sgn * d = sgn * (10 * m + d : ℕ) := by
  push_cast
  ring

/-- no digit: the number ends here -/
theorem decodeDigits_stop (hb : ¬ Decimal.isDigit b = true) :
    decodeDigits limits sgn i (sgn * m) (b :: s) = .ok (v, rest) ↔
      ∃ ds, b :: s = ds ++ rest ∧ Reads limits sgn i m ds rest v := by
  have hstop : decodeDigits limits sgn i (sgn * m) (b :: s) = .ok (sgn * m, b :: s) := by
    cases i <;> rw [decodeDigits, if_neg hb]
  rw [hstop, Except.ok.injEq, Prod.mk.injEq]
  constructor
  · intro h
    obtain ⟨rfl, rfl⟩ := h
    exact ⟨[], rfl, reads_nil_iff.2 ⟨by simpa [startsWithDigit] using hb, by simp, rfl⟩⟩
  · intro h
    obtain ⟨ds, hs, h⟩ := h
    obtain rfl := h.eq_nil hb hs
    exact ⟨(reads_nil_iff.1 h).2.2.symm, hs⟩

/-- the digit behind the loop is checked, and has to be the last -/
theorem decodeDigits_last (hsgn : sgn = 1 ∨ sgn = -1) (hmin : limits.min ≤ 0) (hmax : 0 ≤ limits.max)
    (hb : Decimal.isDigit b = true) : decodeDigits limits sgn 0 (sgn * m) (b :: s) = .ok (v, rest) ↔
      ∃ ds, b :: s = ds ++ rest ∧ Reads limits sgn 0 m ds rest v := by
  have hle : b.toNat - 48 ≤ 9 := by
    have hhigh := (toNat_digit hb).2
    omega
  rw [decodeDigits, if_pos hb]
  simp only [digit_mul_sgn hb, number_mul_ten]
  rw [bind_eq_ok]
  simp only [checkOverUnderflow_eq_ok hsgn hmin hmax hle]
  constructor
  · intro h
    obtain ⟨-, hrange, h⟩ := h
    split_ifs at h with hstop
    rw [pure_eq_ok, Except.ok.injEq, Prod.mk.injEq] at h
    obtain ⟨rfl, rfl⟩ := h
    exact ⟨[b], rfl, by simpa using hb, by simpa using hstop, le_rfl, fun _ => rfl, fun _ => hrange, rfl⟩
  · intro h
    obtain ⟨ds, hs, h⟩ := h
    obtain ⟨ds, rfl, rfl⟩ := h.eq_cons hb hs
    obtain rfl : ds = [] := List.length_eq_zero_iff.1 (Nat.le_zero.1 (Nat.le_of_succ_le_succ h.length))
    have hvalue : v = sgn * (10 * m + (b.toNat - 48) : ℕ) := h.value
    rw [List.nil_append, h.stop, if_neg Bool.false_ne_true, ← hvalue]
    exact ⟨(), h.range rfl, rfl⟩

/-- **Digits.** -/
theorem decodeDigits_eq_ok (hsgn : sgn = 1 ∨ sgn = -1) (hmin : limits.min ≤ 0) (hmax : 0 ≤ limits.max) :
    decodeDigits limits sgn i (sgn * m) s = .ok (v, rest) ↔ ∃ ds, s = ds ++ rest ∧ Reads limits sgn i m ds rest v := by
  induction s generalizing i m with
  | nil =>
    refine iff_of_false (by cases i <;> simp [decodeDigits]) fun h => ?_
    obtain ⟨ds, hs, h⟩ := h
    obtain ⟨rfl, rfl⟩ := List.append_eq_nil_iff.1 hs.symm
    exact (reads_nil_iff.1 h).2.1 rfl
  | cons b s ih =>
    by_cases hb : isDigit b = true
    · cases i with
      | zero => exact decodeDigits_last hsgn hmin hmax hb
      | succ i =>
        rw [decodeDigits, if_pos hb, digit_mul_sgn hb, number_mul_ten, ih]
        constructor
        · intro h
          obtain ⟨ds, rfl, h⟩ := h
          exact ⟨b :: ds, rfl, (reads_cons_iff hb).2 h⟩
        · intro h
          obtain ⟨ds, hs, h⟩ := h
          obtain ⟨ds, rfl, rfl⟩ := h.eq_cons hb hs
          exact ⟨ds, rfl, (reads_cons_iff hb).1 h⟩
    · exact decodeDigits_stop hb

/-- a numeral within the limits is read, if something follows that is no digit -/
theorem Numeral.reads (n : Numeral) (hlen : n.text.length ≤ i + 1) (hstop : startsWithDigit rest = false)
    (hrest : rest ≠ []) (hrange : limits.min ≤ sgn * n.value ∧ sgn * n.value ≤ limits.max) :
    Reads limits sgn i 0 n.text rest (sgn * n.value) :=
  ⟨n.isDigit, hstop, hlen, fun h => absurd h hrest, fun _ => hrange, rfl⟩

/-- what is not checked is in range all the same -/
theorem Reads.within (h : Reads limits sgn i 0 ds rest v) (hsgn : sgn = 1 ∨ sgn = -1)
    (hmin : limits.min ≤ if sgn = 1 then 0 else -10 ^ i) (hmax : 10 ^ i ≤ limits.max) :
    limits.min ≤ v ∧ v ≤ limits.max := by
  by_cases hlen : ds.length = i + 1
  · exact h.range hlen
  · have hle : ds.length ≤ i := Nat.le_of_lt_succ (lt_of_le_of_ne h.length hlen)
    have hlt : (Decimal.value ds : ℤ) < 10 ^ i := by
      exact_mod_cast (value_lt h.isDigit).trans_le (Nat.pow_le_pow_right (by decide) hle)
    rw [show v = sgn * (Decimal.value ds : ℤ) from h.value]
    rcases hsgn with rfl | rfl
    · rw [if_pos rfl] at hmin
      omega
    · rw [if_neg (by decide)] at hmin
      omega

end Digits

/-! ## Integers -/

def signum (negative : Bool) : ℤ := if negative then -1 else 1

theorem signum_cases (negative : Bool) : signum negative = 1 ∨ signum negative = -1 := by
  cases negative
  · exact Or.inl rfl
  · exact Or.inr rfl

theorem integerValue_eq (negative : Bool) (n : Numeral) : integerValue negative n = signum negative * n.value := by
  cases negative <;> simp [integerValue, signum]

theorem takeSign_eq (s : Bytes) :
    ∃ negative, s = sign negative ++ (takeSign s).2 ∧ (takeSign s).1 = signum negative := by
  cases s with
  | nil => exact ⟨false, rfl, rfl⟩
  | cons b s =>
    rw [takeSign]
    split_ifs with hb
    · exact ⟨true, by rw [hb]; rfl, rfl⟩
    · exact ⟨false, rfl, rfl⟩

/-- a numeral does not start with a sign -/
theorem takeSign_sign (negative : Bool) (n : Numeral) (rest : Bytes) :
    takeSign (sign negative ++ (n.text ++ endToken :: rest)) = (signum negative, n.text ++ endToken :: rest) := by
  cases negative with
  | true => rfl
  | false =>
    cases htext : n.text with
    | nil => rfl
    | cons b ds =>
      have hb : b ≠ minus := ne_of_isDigit (n.isDigit b (htext ▸ List.mem_cons_self)) (by decide)
      rw [show sign false = [] from rfl, List.nil_append, List.cons_append, takeSign, if_neg hb]
      rfl

/-- **Integers** within their limits are read. -/
theorem decodeInt_eq_ok {s rest : Bytes} {v : ℤ} : decodeInt s = .ok (v, rest) ↔
    ∃ negative n, (Spelling.integer negative n).Accepted ∧ s = sign negative ++ (n.text ++ endToken :: rest) ∧
      v = integerValue negative n := by
  rw [decodeInt, bind_eq_ok]
  constructor
  · intro h
    obtain ⟨⟨value, r⟩, hdigits, hend⟩ := h
    obtain ⟨rfl, rfl⟩ := takeEnd_eq_ok.1 hend
    obtain ⟨negative, hs, hsgn⟩ := takeSign_eq s
    have hzero : (0 : ℤ) = signum negative * (0 : ℕ) := by simp
    rw [hsgn, hzero, decodeDigits_eq_ok (signum_cases negative) (by decide) (by decide)] at hdigits
    obtain ⟨ds, hds, hreads⟩ := hdigits
    have hwithin := hreads.within (signum_cases negative) (by cases negative <;> decide) (by decide)
    have hvalue : v = integerValue negative ⟨ds, hreads.isDigit⟩ := by
      rw [integerValue_eq]
      exact hreads.value
    exact ⟨negative, ⟨ds, hreads.isDigit⟩, ⟨hreads.length, hvalue ▸ hwithin⟩, by rw [hds] at hs; exact hs, hvalue⟩
  · intro h
    obtain ⟨negative, n, ⟨hlen, hrange⟩, rfl, rfl⟩ := h
    rw [takeSign_sign]
    rw [integerValue_eq] at hrange ⊢
    have hzero : (0 : ℤ) = signum negative * (0 : ℕ) := by simp
    refine ⟨(signum negative * n.value, endToken :: rest), ?_, takeEnd_eq_ok.2 ⟨rfl, rfl⟩⟩
    rw [hzero, decodeDigits_eq_ok (signum_cases negative) (by decide) (by decide)]
    exact ⟨n.text, rfl, n.reads hlen rfl (by simp) hrange⟩

/-! ## Strings -/

/-- **Strings** are read behind their lengths. -/
theorem decodeStr_eq_ok {s rest key : Bytes} (hs : startsWithDigit s = true) : decodeStr s = .ok (key, rest) ↔
    ∃ c : Chars, c.Accepted ∧ s = c.text ++ rest ∧ key = c.bytes := by
  rw [decodeStr, bind_eq_ok]
  have hzero : (0 : ℤ) = 1 * (0 : ℕ) := rfl
  constructor
  · intro h
    obtain ⟨⟨len, r⟩, hdigits, hstring⟩ := h
    obtain ⟨hlen, rfl⟩ := takeString_eq_ok.1 hstring
    rw [hzero, decodeDigits_eq_ok (Or.inl rfl) (by decide) (by decide)] at hdigits
    obtain ⟨ds, rfl, hreads⟩ := hdigits
    have hwithin := hreads.within (Or.inl rfl) (by decide) (by decide)
    have hvalue : len = Decimal.value ds := by
      rw [hreads.value, Int.one_mul]
      rfl
    have hne : ds ≠ [] := by
      intro hnil
      rw [hnil] at hs
      exact absurd (show isDigit colon = true from hs) (by decide)
    refine ⟨⟨⟨ds, hreads.isDigit⟩, key, hne, ?_⟩, ⟨hreads.length, ?_⟩, ?_, rfl⟩
    · show Decimal.value ds = key.length
      omega
    · show (key.length : ℤ) ≤ sizeT.max
      omega
    · rw [Chars.text, List.append_assoc]
      rfl
  · intro h
    obtain ⟨c, ⟨hlen, hmax⟩, rfl, rfl⟩ := h
    refine ⟨(1 * c.length.value, colon :: (c.bytes ++ rest)), ?_, takeString_eq_ok.2 ⟨?_, rfl⟩⟩
    · rw [hzero, decodeDigits_eq_ok (Or.inl rfl) (by decide) (by decide)]
      refine ⟨c.length.text, by rw [Chars.text, List.append_assoc]; rfl, c.length.reads hlen rfl (by simp) ?_⟩
      rw [c.value_length, Int.one_mul]
      exact ⟨Int.natCast_nonneg _, hmax⟩
    · rw [c.value_length]
      omega

/-! ## One element -/

/-- the key in front of an element, if it is one of a dictionary -/
def keyText : Option Chars → Bytes
  | none => []
  | some key => key.text

def keyBytes : Option Chars → Bytes
  | none => []
  | some key => key.bytes

/-- an element with this key can be put into the node -/
def Node.Takes : Node → Option Chars → Prop
  | .list _, key => key = none
  | .dict d, key => ∃ c : Chars, key = some c ∧ c.Accepted ∧ c.bytes ∉ keys d

/-- into the top of the stack, or to the root -/
def Takes : List Level → Option Chars → Prop
  | [], key => key = none
  | top :: _, key => top.node.Takes key

/-- an element that is not a list or a dictionary -/
def Spelling.IsScalar : Spelling → Prop
  | .integer _ _ => True
  | .string _ => True
  | _ => False

/-- a new list or dictionary -/
def openNode (b : UInt8) : Option Node :=
  if b = listToken then some (.list []) else if b = dictToken then some (.dict []) else none

variable {d f : Decoder} {rest : Bytes} {key : Option Chars}

/-- the loop goes on as long as something is open -/
def finish (d : Decoder) : Except DecodeError Decoder := if d.state.isEmpty then .ok d else basicDecode d

theorem basicDecode_eq (d : Decoder) : basicDecode d = d.step >>= finish := by
  rw [basicDecode]
  cases d.step with
  | error e => rfl
  | ok t => rfl

/-- there is room for a key that is new -/
theorem checkKey_dict {entries : List (Bytes × Bencode)} {bytes : Bytes} :
    (Node.dict entries).checkKey bytes = .ok () ↔ bytes ∉ keys entries := by
  rw [Node.checkKey, keys, ← List.contains_iff_mem]
  split_ifs with hmem
  · exact iff_of_false (by simp) (not_not_intro hmem)
  · exact iff_of_true rfl hmem

theorem checkKey_of_takes (h : Takes d.state key) : d.checkKey (keyBytes key) = .ok () := by
  rw [Decoder.checkKey]
  cases hstate : d.state with
  | nil => rfl
  | cons top state =>
    rw [hstate] at h
    cases hnode : top.node with
    | list l => simp [Node.checkKey, hnode]
    | dict entries =>
      rw [Takes, hnode] at h
      obtain ⟨c, rfl, -, hnew⟩ := h
      simp only [hnode]
      exact checkKey_dict.2 hnew

/-- what is in front of an element -/
theorem decodeKey_sound {bytes : Bytes} {t : Decoder} (h : d.decodeKey = .ok (bytes, t))
    (hcheck : t.checkKey bytes = .ok ()) :
    ∃ key, Takes d.state key ∧ bytes = keyBytes key ∧ d.rest = keyText key ++ t.rest ∧ t = { d with rest := t.rest } := by
  obtain ⟨r, state, result⟩ := d
  cases state with
  | nil =>
    cases h
    exact ⟨none, rfl, rfl, rfl, rfl⟩
  | cons top state =>
    obtain ⟨node, dictKey⟩ := top
    cases node with
    | list l =>
      cases h
      exact ⟨none, rfl, rfl, rfl, rfl⟩
    | dict entries =>
      simp only [Decoder.decodeKey] at h
      by_cases hdigit : startsWithDigit r = true
      · rw [if_neg (by simp [hdigit]), bind_eq_ok] at h
        obtain ⟨⟨k, rest⟩, hkey, h⟩ := h
        obtain ⟨c, hc, rfl, rfl⟩ := (decodeStr_eq_ok hdigit).1 hkey
        simp only at h
        split_ifs at h
        cases h
        exact ⟨some c, ⟨c, rfl, hc, checkKey_dict.1 hcheck⟩, rfl, rfl, rfl⟩
      · rw [if_pos (by simp [hdigit])] at h
        cases h

theorem decodeKey_complete (h : Takes d.state key) (hd : d.rest = keyText key ++ rest) (hrest : rest ≠ []) :
    d.decodeKey = .ok (keyBytes key, { d with rest := rest }) := by
  obtain ⟨r, state, result⟩ := d
  subst hd
  cases state with
  | nil =>
    obtain rfl : key = none := h
    rfl
  | cons top state =>
    obtain ⟨node, dictKey⟩ := top
    cases node with
    | list l =>
      obtain rfl : key = none := h
      rfl
    | dict entries =>
      obtain ⟨c, rfl, hc, -⟩ := h
      have hdigit : startsWithDigit (c.text ++ rest) = true := by
        obtain ⟨b, r, htext, hb⟩ := c.exists_text
        rw [htext]
        exact hb
      have hkey : decodeStr (c.text ++ rest) = .ok (c.bytes, rest) := (decodeStr_eq_ok hdigit).2 ⟨c, hc, rfl, rfl⟩
      simp only [Decoder.decodeKey, keyText, hdigit, hkey, ok_bind, if_neg hrest]
      rfl

/-- **One element**, behind its key: a scalar is stored, anything else is opened. -/
theorem decodeValue_sound {bytes : Bytes} {t : Decoder} (h : d.decodeValue bytes = .ok t) : d.checkKey bytes = .ok () ∧
    ((∃ (s : Spelling) (rest : Bytes), s.IsScalar ∧ s.Accepted ∧ d.rest = s.text ++ rest ∧
        t = { d with rest := rest }.store bytes s.value) ∨
      ∃ (b : UInt8) (node : Node) (rest : Bytes), openNode b = some node ∧ d.rest = b :: rest ∧
        t = { d with rest := rest, state := ⟨node, bytes⟩ :: d.state }) := by
  rw [Decoder.decodeValue] at h
  split at h
  · cases h
  · rename_i b r hrest
    split_ifs at h with hi hl hd hdigit
    · obtain ⟨⟨n, r'⟩, hn, h⟩ := bind_eq_ok.1 h
      obtain ⟨_, hcheck, h⟩ := bind_eq_ok.1 h
      cases h
      obtain ⟨negative, m, hm, rfl, rfl⟩ := decodeInt_eq_ok.1 hn
      refine ⟨hcheck, Or.inl ⟨.integer negative m, r', trivial, hm, ?_, rfl⟩⟩
      rw [hrest, hi, Spelling.text]
      simp
    · obtain ⟨_, hcheck, h⟩ := bind_eq_ok.1 h
      cases h
      exact ⟨hcheck, Or.inr ⟨b, .list [], r, by rw [openNode, if_pos hl], hrest, rfl⟩⟩
    · obtain ⟨_, hcheck, h⟩ := bind_eq_ok.1 h
      cases h
      exact ⟨hcheck, Or.inr ⟨b, .dict [], r, by rw [openNode, if_neg hl, if_pos hd], hrest, rfl⟩⟩
    · obtain ⟨⟨s, r'⟩, hs, h⟩ := bind_eq_ok.1 h
      obtain ⟨_, hcheck, h⟩ := bind_eq_ok.1 h
      cases h
      have hstart : startsWithDigit (b :: r) = true := hdigit
      obtain ⟨c, hc, htext, rfl⟩ := (decodeStr_eq_ok hstart).1 hs
      exact ⟨hcheck, Or.inl ⟨.string c, r', trivial, hc, by rw [hrest, htext]; rfl, rfl⟩⟩

/-- a scalar with the right key is stored -/
theorem decodeValue_scalar {s : Spelling} (hs : s.IsScalar) (hacc : s.Accepted) (h : Takes d.state key)
    (hd : d.rest = s.text ++ rest) :
    d.decodeValue (keyBytes key) = .ok ({ d with rest := rest }.store (keyBytes key) s.value) := by
  have hcheck := checkKey_of_takes h
  cases s with
  | list items => exact absurd hs (by simp [Spelling.IsScalar])
  | dict fields => exact absurd hs (by simp [Spelling.IsScalar])
  | integer negative n =>
    have hint : decodeInt (sign negative ++ (n.text ++ endToken :: rest)) = .ok (integerValue negative n, rest) :=
      decodeInt_eq_ok.2 ⟨negative, n, hacc, rfl, rfl⟩
    have htext : d.rest = integerToken :: (sign negative ++ (n.text ++ endToken :: rest)) := by
      rw [hd, Spelling.text]
      simp
    simp only [Decoder.decodeValue, htext, if_true, hint, ok_bind, hcheck]
    rfl
  | string c =>
    obtain ⟨b, r, htext, hb⟩ := c.exists_text
    have hdigit : startsWithDigit (c.text ++ rest) = true := by
      rw [htext]
      exact hb
    have hstr : decodeStr (c.text ++ rest) = .ok (c.bytes, rest) := (decodeStr_eq_ok hdigit).2 ⟨c, hacc, rfl, rfl⟩
    have hrest : d.rest = b :: (r ++ rest) := by rw [hd, Spelling.text, htext, List.cons_append]
    rw [htext, List.cons_append] at hstr
    have hne : ∀ token : UInt8, isDigit token = false → b ≠ token := fun token ht => ne_of_isDigit hb ht
    simp only [Decoder.decodeValue, hrest, if_neg (hne integerToken (by decide)), if_neg (hne listToken (by decide)),
      if_neg (hne dictToken (by decide)), hb, if_true, hstr, ok_bind, hcheck]
    rfl

/-- a list or a dictionary is opened -/
theorem decodeValue_open {b : UInt8} {node : Node} (hb : openNode b = some node) (h : Takes d.state key)
    (hd : d.rest = b :: rest) :
    d.decodeValue (keyBytes key) = .ok { d with rest := rest, state := ⟨node, keyBytes key⟩ :: d.state } := by
  have hcheck := checkKey_of_takes h
  rw [openNode] at hb
  split_ifs at hb with hl hdict
  · cases hb
    have hi : ¬ b = integerToken := by
      rw [hl]
      decide
    simp only [Decoder.decodeValue, hd, if_neg hi, if_pos hl, hcheck, ok_bind]
    rfl
  · cases hb
    have hi : ¬ b = integerToken := by
      rw [hdict]
      decide
    simp only [Decoder.decodeValue, hd, if_neg hi, if_neg hl, if_pos hdict, hcheck, ok_bind]
    rfl

/-! ## Soundness -/

/-- what is read before a node is closed, what is left then, and the value that the node has become -/
def Node.Fills : Node → Bytes → Bytes → Bencode → Prop
  | .list l, text, rest, value => ∃ items : Items, items.Accepted ∧ text = items.text ++ endToken :: rest ∧
      value = .list (l ++ items.values)
  | .dict d, text, rest, value => ∃ fields : Fields, fields.Accepted ∧ fields.keys.Nodup ∧
      (∀ k ∈ fields.keys, k ∉ keys d) ∧ text = fields.text ++ endToken :: rest ∧ value = .dict (fields.entries d)

variable {text : Bytes} {value : Bencode} {node : Node}

theorem Node.fills_nil (node : Node) (rest : Bytes) : node.Fills (endToken :: rest) rest node.toBencode := by
  cases node with
  | list l => exact ⟨.nil, trivial, rfl, by simp [Items.values, toBencode]⟩
  | dict d => exact ⟨.nil, trivial, .nil, by simp [Fields.keys], rfl, rfl⟩

theorem Node.fills_cons {t : Spelling} (h : node.Takes key) (ht : t.Accepted)
    (hfills : (node.put (keyBytes key) t.value).Fills text rest value) :
    node.Fills (keyText key ++ (t.text ++ text)) rest value := by
  cases node with
  | list l =>
    obtain rfl : key = none := h
    obtain ⟨items, hitems, rfl, rfl⟩ := hfills
    refine ⟨.cons t items, ⟨ht, hitems⟩, ?_, ?_⟩
    · rw [keyText, List.nil_append, Items.text, List.append_assoc]
    · rw [Items.values, List.append_assoc, List.singleton_append]
  | dict d =>
    obtain ⟨c, rfl, hc, hnew⟩ := h
    obtain ⟨fields, hfields, hnodup, hdisjoint, rfl, rfl⟩ := hfills
    refine ⟨.cons c t fields, ⟨hc, ht, hfields⟩, ?_, ?_, ?_, rfl⟩
    · rw [Fields.keys, List.nodup_cons]
      refine ⟨fun hmem => ?_, hnodup⟩
      exact hdisjoint c.bytes hmem (mem_keys_emplace.2 (Or.inl rfl))
    · rw [Fields.keys, List.forall_mem_cons]
      exact ⟨hnew, fun k hk hmem => hdisjoint k hk (mem_keys_emplace.2 (Or.inr hmem))⟩
    · rw [keyText, Fields.text, List.append_assoc, List.append_assoc]

/-- a new node that is filled is a list or a dictionary -/
theorem Node.Fills.spelling {b : UInt8} (hb : openNode b = some node) (h : node.Fills text rest value) :
    ∃ t : Spelling, t.Accepted ∧ b :: text = t.text ++ rest ∧ value = t.value := by
  rw [openNode] at hb
  split_ifs at hb with hl hd
  · cases hb
    obtain ⟨items, hitems, rfl, rfl⟩ := h
    refine ⟨.list items, hitems, ?_, rfl⟩
    rw [hl, Spelling.text]
    simp
  · cases hb
    obtain ⟨fields, hfields, hnodup, -, rfl, rfl⟩ := h
    refine ⟨.dict fields, ⟨hnodup, hfields⟩, ?_, rfl⟩
    rw [hd, Spelling.text]
    simp

theorem Node.Fills.length_lt (h : node.Fills text rest value) : rest.length < text.length := by
  cases node with
  | list l =>
    obtain ⟨items, -, rfl, -⟩ := h
    rw [List.length_append, List.length_cons]
    omega
  | dict d =>
    obtain ⟨fields, -, -, -, rfl, -⟩ := h
    rw [List.length_append, List.length_cons]
    omega

/-- **One turn**: a node is closed, a scalar is stored, or a node is opened. -/
theorem step_sound {t : Decoder} (h : d.step = .ok t) :
    (∃ top state rest, d.state = top :: state ∧ d.rest = endToken :: rest ∧
      t = { d with rest := rest, state := state }.store top.dictKey top.node.toBencode) ∨
    ∃ key, Takes d.state key ∧
      ((∃ (s : Spelling) (rest : Bytes), s.IsScalar ∧ s.Accepted ∧ d.rest = keyText key ++ (s.text ++ rest) ∧
          t = { d with rest := rest }.store (keyBytes key) s.value) ∨
        ∃ (b : UInt8) (node : Node) (rest : Bytes), openNode b = some node ∧ d.rest = keyText key ++ b :: rest ∧
          t = { d with rest := rest, state := ⟨node, keyBytes key⟩ :: d.state }) := by
  rw [Decoder.step] at h
  split at h
  · cases h
  · rename_i b r hrest
    split_ifs at h with hb
    · split at h
      · cases h
      · rename_i top state hstate
        cases h
        exact Or.inl ⟨top, state, r, hstate, by rw [hrest, hb], rfl⟩
    · obtain ⟨⟨bytes, u⟩, hkey, hvalue⟩ := bind_eq_ok.1 h
      obtain ⟨hcheck, hvalue⟩ := decodeValue_sound hvalue
      obtain ⟨key, htakes, rfl, hd, hu⟩ := decodeKey_sound hkey hcheck
      rw [hu] at hvalue
      refine Or.inr ⟨key, htakes, ?_⟩
      rcases hvalue with ⟨s, rest, hs, hacc, htext, rfl⟩ | ⟨b, node, rest, hopen, htext, rfl⟩
      · exact Or.inl ⟨s, rest, hs, hacc, by rw [hd, htext], rfl⟩
      · exact Or.inr ⟨b, node, rest, hopen, by rw [hd, htext], rfl⟩

/-- **Open nodes.** If the loop ends, the top of the stack is filled first, and stored in what is below it. -/
theorem fills_of_basicDecode {top : Level} {state : List Level} {result : Bencode}
    (h : basicDecode ⟨text, top :: state, result⟩ = .ok f) : ∃ value rest, top.node.Fills text rest value ∧
      finish ((⟨rest, state, result⟩ : Decoder).store top.dictKey value) = .ok f := by
  induction hn : text.length using Nat.strong_induction_on generalizing text top state with
  | _ n ih =>
    subst hn
    rw [basicDecode_eq, bind_eq_ok] at h
    obtain ⟨t, hstep, hfinish⟩ := h
    -- an element of the top node is followed by the others
    have hcons : ∀ {key : Option Chars} {s : Spelling} {rest : Bytes}, top.node.Takes key → s.Accepted →
        text = keyText key ++ (s.text ++ rest) → rest.length < text.length →
        basicDecode ⟨rest, ⟨top.node.put (keyBytes key) s.value, top.dictKey⟩ :: state, result⟩ = .ok f →
        ∃ value rest, top.node.Fills text rest value ∧
          finish ((⟨rest, state, result⟩ : Decoder).store top.dictKey value) = .ok f := by
      intro key s rest htakes hs htext hlt hrun
      obtain ⟨value, rest', hfills, hend⟩ := ih rest.length hlt hrun rfl
      exact ⟨value, rest', htext ▸ Node.fills_cons htakes hs hfills, hend⟩
    have hlt := Decoder.step_lt hstep
    rcases step_sound hstep with ⟨top', state', rest, hstate, htext, rfl⟩ |
      ⟨key, htakes, ⟨s, rest, -, hs, htext, rfl⟩ | ⟨b, node, rest, hopen, htext, rfl⟩⟩
    · cases hstate
      simp only at htext
      subst htext
      exact ⟨_, rest, Node.fills_nil _ rest, hfinish⟩
    · exact hcons htakes hs htext hlt hfinish
    · obtain ⟨value, rest', hfills, hrun⟩ := ih rest.length hlt hfinish rfl
      have hlt' := hfills.length_lt
      obtain ⟨s, hs, hsrest, rfl⟩ := hfills.spelling hopen
      refine hcons htakes hs ?_ (hlt'.trans hlt) hrun
      rw [← hsrest]
      exact htext

/-- **Soundness.** A value that is decoded has an accepted spelling at the start of the text. -/
theorem decode_sound {v : Bencode} (h : decode text = .ok v) :
    ∃ (t : Spelling) (rest : Bytes), t.Accepted ∧ text = t.text ++ rest ∧ v = t.value := by
  obtain ⟨f, hrun, h⟩ := bind_eq_ok.1 h
  cases h
  rw [basicDecode_eq, bind_eq_ok] at hrun
  obtain ⟨d, hstep, hfinish⟩ := hrun
  rcases step_sound hstep with ⟨top, state, rest, hstate, -, -⟩ |
    ⟨key, htakes, ⟨s, rest, -, hs, htext, rfl⟩ | ⟨b, node, rest, hopen, htext, rfl⟩⟩
  · cases hstate
  · obtain rfl : key = none := htakes
    cases hfinish
    exact ⟨s, rest, hs, htext, rfl⟩
  · obtain rfl : key = none := htakes
    obtain ⟨value, rest', hfills, hend⟩ := fills_of_basicDecode hfinish
    cases hend
    obtain ⟨t, ht, htrest, rfl⟩ := hfills.spelling hopen
    exact ⟨t, rest', ht, by rw [← htrest]; exact htext, rfl⟩

/-! ## Completeness -/

theorem keyText_ne_end (key : Option Chars) (t : Spelling) (q r : Bytes) :
    keyText key ++ (t.text ++ q) ≠ endToken :: r := by
  cases key with
  | none => exact t.text_ne_end q r
  | some c => exact c.text_ne_end _ r

/-- the element behind its key -/
theorem step_element {t : Spelling} (h : Takes d.state key) (hd : d.rest = keyText key ++ (t.text ++ rest)) :
    d.step = ({ d with rest := t.text ++ rest } : Decoder).decodeValue (keyBytes key) := by
  obtain ⟨b, r, htext, -⟩ := t.exists_text
  have hne : t.text ++ rest ≠ [] := by simp [htext]
  have hkey := decodeKey_complete h hd hne
  rw [Decoder.step]
  cases hrest : d.rest with
  | nil =>
    rw [hrest] at hd
    exact absurd (List.append_eq_nil_iff.1 hd.symm).2 hne
  | cons c r =>
    have hc : ¬ c = endToken := by
      intro hc
      rw [hrest, hc] at hd
      exact keyText_ne_end key t rest r hd.symm
    simp only [if_neg hc, hkey, ok_bind]

theorem basicDecode_close (top : Level) (state : List Level) (result : Bencode) (rest : Bytes) :
    basicDecode ⟨endToken :: rest, top :: state, result⟩ =
      finish ((⟨rest, state, result⟩ : Decoder).store top.dictKey top.node.toBencode) := by
  rw [basicDecode_eq]
  rfl

mutual

/-- an accepted spelling is read and stored -/
theorem Spelling.Accepted.read (t : Spelling) (h : t.Accepted) (d : Decoder) (key : Option Chars) (rest : Bytes)
    (hkey : Takes d.state key) (hd : d.rest = keyText key ++ (t.text ++ rest)) :
    basicDecode d = finish ({ d with rest := rest }.store (keyBytes key) t.value) := by
  rw [basicDecode_eq, step_element hkey hd]
  have hbehind : Takes ({ d with rest := t.text ++ rest } : Decoder).state key := hkey
  match t with
  | .integer negative n =>
    rw [decodeValue_scalar (s := .integer negative n) trivial h hbehind rfl]
    rfl
  | .string c =>
    rw [decodeValue_scalar (s := .string c) trivial h hbehind rfl]
    rfl
  | .list items =>
    have htext : (Spelling.list items).text ++ rest = listToken :: (items.text ++ endToken :: rest) := by
      simp [Spelling.text]
    rw [decodeValue_open (b := listToken) rfl hbehind htext]
    exact Items.Accepted.read items h [] _ _ _ _
  | .dict fields =>
    have htext : (Spelling.dict fields).text ++ rest = dictToken :: (fields.text ++ endToken :: rest) := by
      simp [Spelling.text]
    rw [decodeValue_open (b := dictToken) rfl hbehind htext]
    exact Fields.Accepted.read fields h.2 h.1 [] (by simp) _ _ _ _

theorem Items.Accepted.read (items : Items) (h : items.Accepted) (l : List Bencode) (dictKey : Bytes)
    (state : List Level) (result : Bencode) (rest : Bytes) :
    basicDecode ⟨items.text ++ endToken :: rest, ⟨.list l, dictKey⟩ :: state, result⟩ =
      finish ((⟨rest, state, result⟩ : Decoder).store dictKey (.list (l ++ items.values))) := by
  match items with
  | .nil =>
    rw [Items.text, List.nil_append, basicDecode_close, Items.values, List.append_nil]
    rfl
  | .cons head tail =>
    have htext : (Items.cons head tail).text ++ endToken :: rest = head.text ++ (tail.text ++ endToken :: rest) := by
      rw [Items.text, List.append_assoc]
    calc basicDecode ⟨(Items.cons head tail).text ++ endToken :: rest, ⟨.list l, dictKey⟩ :: state, result⟩
        = basicDecode ⟨tail.text ++ endToken :: rest, ⟨.list (l ++ [head.value]), dictKey⟩ :: state, result⟩ :=
          Spelling.Accepted.read head h.1 ⟨_, ⟨.list l, dictKey⟩ :: state, result⟩ none _ rfl htext
      _ = finish ((⟨rest, state, result⟩ : Decoder).store dictKey (.list (l ++ [head.value] ++ tail.values))) :=
          Items.Accepted.read tail h.2 _ _ _ _ _
      _ = finish ((⟨rest, state, result⟩ : Decoder).store dictKey (.list (l ++ (Items.cons head tail).values))) := by
          rw [Items.values, List.append_assoc, List.singleton_append]

theorem Fields.Accepted.read (fields : Fields) (h : fields.Accepted) (hnodup : fields.keys.Nodup)
    (entries : List (Bytes × Bencode)) (hnew : ∀ k ∈ fields.keys, k ∉ keys entries) (dictKey : Bytes)
    (state : List Level) (result : Bencode) (rest : Bytes) :
    basicDecode ⟨fields.text ++ endToken :: rest, ⟨.dict entries, dictKey⟩ :: state, result⟩ =
      finish ((⟨rest, state, result⟩ : Decoder).store dictKey (.dict (fields.entries entries))) := by
  match fields with
  | .nil =>
    rw [Fields.text, List.nil_append, basicDecode_close]
    rfl
  | .cons key value tail =>
    have htext : (Fields.cons key value tail).text ++ endToken :: rest =
        keyText (some key) ++ (value.text ++ (tail.text ++ endToken :: rest)) := by
      rw [Fields.text, keyText, List.append_assoc, List.append_assoc]
    rw [Fields.keys, List.nodup_cons] at hnodup
    rw [Fields.keys, List.forall_mem_cons] at hnew
    have hdisjoint : ∀ k ∈ tail.keys, k ∉ keys (emplace key.bytes value.value entries) := by
      intro k hk hmem
      rcases mem_keys_emplace.1 hmem with rfl | hmem
      · exact hnodup.1 hk
      · exact hnew.2 k hk hmem
    calc basicDecode ⟨(Fields.cons key value tail).text ++ endToken :: rest, ⟨.dict entries, dictKey⟩ :: state, result⟩
        = basicDecode ⟨tail.text ++ endToken :: rest,
            ⟨.dict (emplace key.bytes value.value entries), dictKey⟩ :: state, result⟩ :=
          Spelling.Accepted.read value h.2.1 ⟨_, ⟨.dict entries, dictKey⟩ :: state, result⟩ (some key) _
            ⟨key, rfl, h.1, hnew.1⟩ htext
      _ = finish ((⟨rest, state, result⟩ : Decoder).store dictKey
            (.dict ((Fields.cons key value tail).entries entries))) :=
          Fields.Accepted.read tail h.2.2 hnodup.2 _ hdisjoint _ _ _ _

end

/-- **Completeness.** Every accepted spelling is decoded, whatever follows. -/
theorem decode_complete {t : Spelling} (h : t.Accepted) (rest : Bytes) : decode (t.text ++ rest) = .ok t.value := by
  rw [decode, h.read t ⟨t.text ++ rest, [], .integer 0⟩ none rest rfl rfl]
  rfl

/-- **What is decoded**: just the accepted spellings. -/
theorem decode_eq_ok {v : Bencode} : decode text = .ok v ↔
    ∃ (t : Spelling) (rest : Bytes), t.Accepted ∧ text = t.text ++ rest ∧ v = t.value := by
  constructor
  · exact decode_sound
  · intro h
    obtain ⟨t, rest, ht, rfl, rfl⟩ := h
    exact decode_complete ht rest

/-- **Round trip.** What was encoded is decoded to the value it was made of, if its keys are in order and its numbers
and lengths are within the limits. -/
theorem decode_encode {v : Bencode} (hv : Sorted v) (hacc : (spell v).Accepted) (rest : Bytes) :
    decode (encode v ++ rest) = .ok v :=
  calc decode (encode v ++ rest) = decode ((spell v).text ++ rest) := by rw [text_spell]
    _ = .ok (spell v).value := decode_complete hacc rest
    _ = .ok v := by rw [value_spell v hv]

end SimpleTorrent.Bencode
