/-
Decimal numerals as byte strings.

- `digits`, `render`: a natural number and an integer, written without leading zeros. `plain_iff`: what `digits` writes.
- `scan`: the integer at the start of a string, after white space; whatever follows the digits is ignored.
- `scan_render`: what was rendered is scanned back.
- `dotted`: bytes in dotted decimal notation.

Nothing here refers to a particular program.
-/
import Mathlib.Tactic

namespace SimpleTorrent.Decimal

/-! ## Characters -/

def isDigit (b : UInt8) : Bool := 48 ≤ b && b ≤ 57

/-- the white space of the C locale -/
def isSpace (b : UInt8) : Bool := b == 32 || (9 ≤ b && b ≤ 13)

def minus : UInt8 := 45

def plus : UInt8 := 43

theorem isSpace_of_isDigit {b : UInt8} (h : isDigit b = true) : isSpace b = false := by
  simp only [isDigit, isSpace, Bool.and_eq_true, decide_eq_true_eq, UInt8.le_iff_toNat_le, UInt8.reduceToNat] at h ⊢
  have hne : b ≠ 32 := by
    intro hb
    subst hb
    exact absurd h.1 (by decide)
  simp only [beq_false_of_ne hne, Bool.false_or, Bool.and_eq_false_iff, decide_eq_false_iff_not]
  omega

theorem ne_of_isDigit {b c : UInt8} (h : isDigit b = true) (hc : isDigit c = false) : b ≠ c := by
  intro hbc
  rw [← hbc, h] at hc
  cases hc

/-! ## Natural numbers -/

/-- the digits of a number, in ASCII -/
def digits (n : ℕ) : List UInt8 := (Nat.toDigits 10 n).map fun c => UInt8.ofNat c.toNat

/-- the number that digits stand for -/
def value (s : List UInt8) : ℕ := s.foldl (fun n b => 10 * n + (b.toNat - 48)) 0

theorem digits_ne_nil (n : ℕ) : digits n ≠ [] := by
  simp [digits]

theorem toNat_of_isDigit {c : Char} (h : c.isDigit = true) :
    (UInt8.ofNat c.toNat).toNat = c.toNat ∧ 48 ≤ c.toNat ∧ c.toNat ≤ 57 := by
  rw [Char.isDigit, Bool.and_eq_true, decide_eq_true_eq, decide_eq_true_eq] at h
  have hlow : 48 ≤ c.toNat := h.1
  have hhigh : c.toNat ≤ 57 := h.2
  exact ⟨by rw [UInt8.toNat_ofNat']; omega, hlow, hhigh⟩

theorem isDigit_of_mem_digits {n : ℕ} {b : UInt8} (h : b ∈ digits n) : isDigit b = true := by
  obtain ⟨c, hc, rfl⟩ := List.mem_map.1 h
  obtain ⟨hc, hlow, hhigh⟩ := toNat_of_isDigit (Nat.isDigit_of_mem_toDigits (by decide) (le_refl 10) hc)
  simp only [isDigit, Bool.and_eq_true, decide_eq_true_eq, UInt8.le_iff_toNat_le, hc]
  exact ⟨hlow, hhigh⟩

theorem value_digits (n : ℕ) : value (digits n) = n := by
  have hfold : value (digits n) = Nat.ofDigitChars 10 (Nat.toDigits 10 n) 0 := by
    rw [value, digits, List.foldl_map, Nat.ofDigitChars_eq_foldl]
    refine List.foldl_ext _ _ _ ?_
    intro k c hc
    rw [(toNat_of_isDigit (Nat.isDigit_of_mem_toDigits (by decide) (le_refl 10) hc)).1]
    rfl
  rw [hfold, Nat.ofDigitChars_ten_toDigits]

/-! ## Numerals -/

/-- digits without needless zeros in front -/
def Plain (s : List UInt8) : Prop := s ≠ [] ∧ (s.head? = some 48 → s = [48])

/-- where digits end -/
theorem takeWhile_append {s rest : List UInt8} (hs : ∀ b ∈ s, isDigit b = true)
    (hrest : ∀ b ∈ rest.head?, isDigit b = false) : (s ++ rest).takeWhile isDigit = s := by
  rw [List.takeWhile_append_of_pos hs]
  cases rest with
  | nil => simp
  | cons b rest => simp [hrest b rfl]

theorem append_inj_of_digits {s t rest rest' : List UInt8} (hs : ∀ b ∈ s, isDigit b = true)
    (ht : ∀ b ∈ t, isDigit b = true) (hrest : ∀ b ∈ rest.head?, isDigit b = false)
    (hrest' : ∀ b ∈ rest'.head?, isDigit b = false) (h : s ++ rest = t ++ rest') : s = t ∧ rest = rest' := by
  have htake := congrArg (List.takeWhile isDigit) h
  rw [takeWhile_append hs hrest, takeWhile_append ht hrest'] at htake
  subst htake
  exact ⟨rfl, List.append_cancel_left h⟩

theorem value_concat (s : List UInt8) (b : UInt8) : value (s ++ [b]) = 10 * value s + (b.toNat - 48) := by
  rw [value, List.foldl_append]
  rfl

theorem toNat_digit {b : UInt8} (h : isDigit b = true) : 48 ≤ b.toNat ∧ b.toNat ≤ 57 := by
  simp only [isDigit, Bool.and_eq_true, decide_eq_true_eq, UInt8.le_iff_toNat_le, UInt8.reduceToNat] at h
  exact h

theorem value_lt {s : List UInt8} (hs : ∀ b ∈ s, isDigit b = true) : value s < 10 ^ s.length := by
  induction s using List.reverseRecOn with
  | nil => exact Nat.one_pos
  | append_singleton init b ih =>
    have hb := toNat_digit (hs b (List.mem_append_right _ List.mem_cons_self))
    have hinit := ih fun c hc => hs c (List.mem_append_left _ hc)
    rw [value_concat, List.length_append, List.length_singleton, Nat.pow_succ]
    omega

theorem digits_of_lt {d : ℕ} (h : d < 10) : digits d = [UInt8.ofNat (48 + d)] := by
  rw [digits, Nat.toDigits_of_lt_base h]
  interval_cases d <;> rfl

theorem digits_append {m d : ℕ} (hm : 0 < m) (hd : d < 10) : digits (10 * m + d) = digits m ++ digits d := by
  rw [digits, ← Nat.toDigits_append_toDigits (by decide) hm hd, List.map_append]
  rfl

/-- the digit of a byte -/
theorem digits_digit {b : UInt8} (h : isDigit b = true) : digits (b.toNat - 48) = [b] := by
  obtain ⟨hlow, hhigh⟩ := toNat_digit h
  rw [digits_of_lt (by omega), Nat.add_sub_cancel' hlow, UInt8.ofNat_toNat]

/-- digits that do not start with zero are written for their value -/
theorem digits_value {s : List UInt8} (hs : ∀ b ∈ s, isDigit b = true) (hne : s ≠ []) (hzero : s.head? ≠ some 48) :
    0 < value s ∧ digits (value s) = s := by
  induction s using List.reverseRecOn with
  | nil => exact absurd rfl hne
  | append_singleton init b ih =>
    have hb : isDigit b = true := hs b (List.mem_append_right _ List.mem_cons_self)
    obtain ⟨hlow, hhigh⟩ := toNat_digit hb
    rw [value_concat]
    by_cases hinit : init = []
    · subst hinit
      have hb48 : b.toNat ≠ 48 := by
        intro h
        exact hzero (congrArg some (UInt8.toNat_inj.1 h))
      refine ⟨by omega, ?_⟩
      rw [show value [] = 0 from rfl, Nat.mul_zero, Nat.zero_add, digits_digit hb]
      rfl
    · have hhead : init.head? ≠ some 48 := by
        rwa [List.head?_append_of_ne_nil _ hinit] at hzero
      obtain ⟨hpos, hdigits⟩ := ih (fun c hc => hs c (List.mem_append_left _ hc)) hinit hhead
      refine ⟨by omega, ?_⟩
      rw [digits_append hpos (by omega), hdigits, digits_digit hb]

theorem plain_digits (n : ℕ) : Plain (digits n) := by
  refine ⟨digits_ne_nil n, ?_⟩
  induction n using Nat.strong_induction_on with
  | _ n ih =>
    intro hhead
    by_cases hn : n < 10
    · rw [digits_of_lt hn] at hhead ⊢
      exact congrArg (fun b => [b]) (Option.some.inj hhead)
    · -- the digits in front are not those of zero
      rw [← Nat.div_add_mod n 10, digits_append (by omega) (Nat.mod_lt n (by decide)),
        List.head?_append_of_ne_nil _ (digits_ne_nil _)] at hhead
      have hvalue := value_digits (n / 10)
      rw [ih (n / 10) (by omega) hhead] at hvalue
      have hzero : value [48] = 0 := rfl
      omega

/-- **Plain numerals** are those that `digits` writes. -/
theorem plain_iff {s : List UInt8} (hs : ∀ b ∈ s, isDigit b = true) : Plain s ↔ digits (value s) = s := by
  constructor
  · intro h
    by_cases hzero : s.head? = some 48
    · rw [h.2 hzero]
      rfl
    · exact (digits_value hs h.1 hzero).2
  · intro h
    rw [← h]
    exact plain_digits _

/-! ## Integers -/

/-- an integer, with a sign if it is negative -/
def render : ℤ → List UInt8
  | .ofNat n => digits n
  | .negSucc n => minus :: digits (n + 1)

/-- the number that the digits at the start of a string stand for, if there are any -/
def scanDigits (s : List UInt8) : Option ℕ :=
  if s.takeWhile isDigit = [] then none else some (value (s.takeWhile isDigit))

/-- the integer at the start of a string: white space, an optional sign, digits -/
def scan (s : List UInt8) : Option ℤ :=
  match s.dropWhile isSpace with
  | [] => none
  | b :: rest =>
    if b = minus then (scanDigits rest).map fun n => -(n : ℤ)
    else if b = plus then (scanDigits rest).map (↑·)
    else (scanDigits (b :: rest)).map (↑·)

variable {n : ℕ} {rest : List UInt8}

theorem takeWhile_digits (hrest : ∀ b ∈ rest.head?, isDigit b = false) :
    (digits n ++ rest).takeWhile isDigit = digits n := takeWhile_append (fun _ hb => isDigit_of_mem_digits hb) hrest

theorem scanDigits_digits (hrest : ∀ b ∈ rest.head?, isDigit b = false) : scanDigits (digits n ++ rest) = some n := by
  rw [scanDigits, takeWhile_digits hrest, if_neg (digits_ne_nil n), value_digits]

/-- **A number is scanned back**, up to the first byte that is not a digit. -/
theorem scan_render (n : ℤ) (hrest : ∀ b ∈ rest.head?, isDigit b = false) : scan (render n ++ rest) = some n := by
  cases n with
  | ofNat n =>
    cases hd : digits n with
    | nil => exact absurd hd (digits_ne_nil n)
    | cons b tail =>
      have hb : isDigit b = true := isDigit_of_mem_digits (n := n) (hd ▸ List.mem_cons_self)
      have hscan := scanDigits_digits (n := n) hrest
      rw [hd] at hscan
      simp only [scan, render, hd, List.cons_append, List.dropWhile_cons, isSpace_of_isDigit hb, Bool.false_eq_true,
        if_false, ne_of_isDigit hb (show isDigit minus = false by decide),
        ne_of_isDigit hb (show isDigit plus = false by decide)]
      rw [List.cons_append] at hscan
      rw [hscan]
      rfl
  | negSucc n =>
    have hspace : isSpace minus = false := by decide
    simp only [scan, render, List.cons_append, List.dropWhile_cons, hspace, Bool.false_eq_true, if_false, if_true,
      scanDigits_digits hrest]
    rfl

theorem scan_render_nil (n : ℤ) : scan (render n) = some n := by
  rw [← List.append_nil (render n)]
  exact scan_render n (by simp)

theorem render_injective : Function.Injective render := by
  intro m n h
  have hscan := scan_render_nil m
  rw [h, scan_render_nil, Option.some.injEq] at hscan
  exact hscan.symm

theorem not_mem_render {b : UInt8} (hdigit : isDigit b = false) (hminus : b ≠ minus) (n : ℤ) : b ∉ render n := by
  intro h
  cases n with
  | ofNat n => exact ne_of_isDigit (isDigit_of_mem_digits h) hdigit rfl
  | negSucc n =>
    rcases List.mem_cons.1 h with h | h
    · exact hminus h
    · exact ne_of_isDigit (isDigit_of_mem_digits h) hdigit rfl

/-! ## Dotted notation -/

/-- bytes in dotted decimal notation -/
def dotted (bytes : List UInt8) : List UInt8 := [(46 : UInt8)].intercalate (bytes.map fun b => digits b.toNat)

end SimpleTorrent.Decimal
