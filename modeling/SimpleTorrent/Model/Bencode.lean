/-
`bencode.hpp`: values, the decoder and the encoder.

The decoder keeps a stack of the lists and dictionaries that are open. The source stores a list in the one around it when
it is opened and fills it in place; here it is stored when it is closed, after the same check. At the end of the input
an iterator reads a byte that is no digit and starts nothing.
-/
import SimpleTorrent.Core.Decimal
import SimpleTorrent.Model.Types

namespace SimpleTorrent

open Checked Decimal

/-- `bencode::data`; the entries of a dictionary are in the order of the keys -/
inductive Bencode where
  | integer (n : ℤ)
  | string (s : Bytes)
  | list (l : List Bencode)
  | dict (d : List (Bytes × Bencode))

/-- what `std::get` and `at` throw -/
inductive BencodeError where
  | badVariantAccess
  | outOfRange
deriving DecidableEq, Repr

namespace Bencode

def getDict : Bencode → Except BencodeError (List (Bytes × Bencode))
  | .dict d => .ok d
  | _ => .error .badVariantAccess

def getList : Bencode → Except BencodeError (List Bencode)
  | .list l => .ok l
  | _ => .error .badVariantAccess

def getString : Bencode → Except BencodeError Bytes
  | .string s => .ok s
  | _ => .error .badVariantAccess

def getInteger : Bencode → Except BencodeError ℤ
  | .integer n => .ok n
  | _ => .error .badVariantAccess

end Bencode

/-- `dict.at(key)` -/
def dictAt (d : List (Bytes × Bencode)) (key : Bytes) : Except BencodeError Bencode :=
  match d.lookup key with
  | some value => .ok value
  | none => .error .outOfRange

/-- ':' -/
def colon : UInt8 := 58

namespace Bencode

/-! ## encode -/

/-- 'd' -/
def dictToken : UInt8 := 100

/-- 'e' -/
def endToken : UInt8 := 101

/-- 'i' -/
def integerToken : UInt8 := 105

/-- 'l' -/
def listToken : UInt8 := 108

def encodeInteger (n : ℤ) : Bytes := integerToken :: render n ++ [endToken]

def encodeString (s : Bytes) : Bytes := digits s.length ++ colon :: s

mutual

def encode : Bencode → Bytes
  | .integer n => encodeInteger n
  | .string s => encodeString s
  | .list l => listToken :: encodeList l ++ [endToken]
  | .dict d => dictToken :: encodeDict d ++ [endToken]

/-- the calls of `list_encoder::add` -/
def encodeList : List Bencode → Bytes
  | [] => []
  | value :: l => encode value ++ encodeList l

/-- the calls of `dict_encoder::add` -/
def encodeDict : List (Bytes × Bencode) → Bytes
  | [] => []
  | (key, value) :: d => encodeString key ++ encode value ++ encodeDict d

end

/-! ## Numbers and strings -/

/-- what `decode` throws, with the text of the exception -/
inductive DecodeError where
  /-- "unexpected end of input" -/
  | endOfInput
  /-- "integer overflow" -/
  | overflow
  /-- "integer underflow" -/
  | underflow
  /-- "expected 'e' token" -/
  | expectedEnd
  /-- "expected ':' token" -/
  | expectedColon
  /-- "unexpected 'e' token" -/
  | unexpectedEnd
  /-- "expected string start token for dict key" -/
  | expectedKey
  /-- "unexpected type token" -/
  | unexpectedType
  /-- "duplicated key in dict: ", and the key -/
  | duplicatedKey (key : Bytes)
deriving DecidableEq, Repr

/-- `std::numeric_limits` -/
structure NumericLimits where
  digits10 : ℕ
  min : ℤ
  max : ℤ

def longLong : NumericLimits := ⟨18, -2 ^ 63, 2 ^ 63 - 1⟩

def sizeT : NumericLimits := ⟨19, 0, 2 ^ 64 - 1⟩

section Digits

variable (limits : NumericLimits)

def checkOverflow (value digit : ℤ) : Except DecodeError Unit :=
  if limits.max / 10 < value ∨ value = limits.max / 10 ∧ limits.max % 10 < digit then .error .overflow else .ok ()

/-- division and remainder of `min` are those of C++, which round to zero -/
def checkUnderflow (value digit : ℤ) : Except DecodeError Unit :=
  if value < limits.min.tdiv 10 ∨ value = limits.min.tdiv 10 ∧ digit < limits.min.tmod 10 then .error .underflow
  else .ok ()

def checkOverUnderflow (value digit sgn : ℤ) : Except DecodeError Unit :=
  if sgn = 1 then checkOverflow limits value digit else checkUnderflow limits value digit

/-- `std::isdigit(*begin)` -/
def startsWithDigit (s : Bytes) : Bool := s.head?.any isDigit

/-- `decode_digits`, with `i` more turns of its loop -/
def decodeDigits (sgn : ℤ) : ℕ → ℤ → Bytes → Except DecodeError (ℤ × Bytes)
  | _, _, [] => .error .endOfInput
  | i + 1, value, b :: rest =>
    if isDigit b then decodeDigits sgn i (value * 10 + (b.toNat - 48) * sgn) rest else .ok (value, b :: rest)
  | 0, value, b :: rest =>
    if isDigit b then do
      let digit := (b.toNat - 48) * sgn
      checkOverUnderflow limits value digit sgn
      if startsWithDigit rest then .error (if sgn = 1 then .overflow else .underflow)
      else return (value * 10 + digit, rest)
    else .ok (value, b :: rest)

end Digits

/-- the sign of an integer -/
def takeSign : Bytes → ℤ × Bytes
  | [] => (1, [])
  | b :: rest => if b = minus then (-1, rest) else (1, b :: rest)

/-- the end of `decode_int` -/
def takeEnd (value : ℤ) : Bytes → Except DecodeError (ℤ × Bytes)
  | [] => .error .expectedEnd
  | b :: rest => if b = endToken then .ok (value, rest) else .error .expectedEnd

/-- `decode_int`, behind its first byte -/
def decodeInt (s : Bytes) : Except DecodeError (ℤ × Bytes) := do
  let (value, rest) ← decodeDigits longLong (takeSign s).1 longLong.digits10 0 (takeSign s).2
  takeEnd value rest

/-- the end of `decode_str`; the source makes room for the string first, and an exception there is a rejection, too -/
def takeString (len : ℤ) : Bytes → Except DecodeError (Bytes × Bytes)
  | [] => .error .endOfInput
  | b :: rest =>
    if b ≠ colon then .error .expectedColon
    else if (rest.length : ℤ) < len then .error .endOfInput
    else .ok (rest.take len.toNat, rest.drop len.toNat)

def decodeStr (s : Bytes) : Except DecodeError (Bytes × Bytes) := do
  let (len, rest) ← decodeDigits sizeT 1 sizeT.digits10 0 s
  takeString len rest

/-! ## basic_decode -/

/-- a list or a dictionary that is open -/
inductive Node where
  | list (l : List Bencode)
  | dict (d : List (Bytes × Bencode))

/-- `std::map::emplace`, for a new key -/
def emplace (key : Bytes) (value : Bencode) : List (Bytes × Bencode) → List (Bytes × Bencode)
  | [] => [(key, value)]
  | (k, v) :: d => if key < k then (key, value) :: (k, v) :: d else (k, v) :: emplace key value d

namespace Node

def toBencode : Node → Bencode
  | .list l => .list l
  | .dict d => .dict d

/-- whether there is room for a new element -/
def checkKey (dictKey : Bytes) : Node → Except DecodeError Unit
  | .list _ => .ok ()
  | .dict d => if (d.map (·.1)).contains dictKey then .error (.duplicatedKey dictKey) else .ok ()

/-- at the end of a list, or into a dictionary -/
def put (dictKey : Bytes) (thing : Bencode) : Node → Node
  | .list l => .list (l ++ [thing])
  | .dict d => .dict (emplace dictKey thing d)

end Node

/-- an entry of the stack; `dictKey` is the key of the node in the dictionary around it -/
structure Level where
  node : Node
  dictKey : Bytes

structure Decoder where
  /-- from `begin` to `end` -/
  rest : Bytes
  /-- the top of the stack first -/
  state : List Level
  result : Bencode

namespace Decoder

def checkKey (d : Decoder) (dictKey : Bytes) : Except DecodeError Unit :=
  match d.state with
  | [] => .ok ()
  | top :: _ => top.node.checkKey dictKey

/-- to the root, or into the top element of the stack -/
def store (d : Decoder) (dictKey : Bytes) (thing : Bencode) : Decoder :=
  match d.state with
  | [] => { d with result := thing }
  | top :: state => { d with state := ⟨top.node.put dictKey thing, top.dictKey⟩ :: state }

/-- in a dictionary the key comes first -/
def decodeKey (d : Decoder) : Except DecodeError (Bytes × Decoder) :=
  match d.state with
  | ⟨.dict _, _⟩ :: _ => do
    if !startsWithDigit d.rest then .error .expectedKey
    else
      let (dictKey, rest) ← decodeStr d.rest
      if rest = [] then .error .endOfInput
      else return (dictKey, { d with rest := rest })
  | _ => .ok ([], d)

/-- an element: it is stored, or opened -/
def decodeValue (d : Decoder) (dictKey : Bytes) : Except DecodeError Decoder :=
  match d.rest with
  | [] => .error .endOfInput
  | b :: rest =>
    if b = integerToken then do
      let (n, rest) ← decodeInt rest
      d.checkKey dictKey
      return { d with rest := rest }.store dictKey (.integer n)
    else if b = listToken then do
      d.checkKey dictKey
      return { d with rest := rest, state := ⟨.list [], dictKey⟩ :: d.state }
    else if b = dictToken then do
      d.checkKey dictKey
      return { d with rest := rest, state := ⟨.dict [], dictKey⟩ :: d.state }
    else if isDigit b then do
      let (s, rest) ← decodeStr (b :: rest)
      d.checkKey dictKey
      return { d with rest := rest }.store dictKey (.string s)
    else .error .unexpectedType

/-- one turn of the loop -/
def step (d : Decoder) : Except DecodeError Decoder :=
  match d.rest with
  | [] => .error .endOfInput
  | b :: rest =>
    if b = endToken then
      match d.state with
      | [] => .error .unexpectedEnd
      | top :: state => .ok ({ d with rest := rest, state := state }.store top.dictKey top.node.toBencode)
    else do
      let (dictKey, d) ← d.decodeKey
      d.decodeValue dictKey

end Decoder

/-! ## The loop ends -/

section Shorter

variable {limits : NumericLimits} {sgn value v : ℤ} {s rest key : Bytes} {d t : Decoder}

theorem decodeDigits_le {i : ℕ} (h : decodeDigits limits sgn i value s = .ok (v, rest)) : rest.length ≤ s.length := by
  induction s generalizing i value with
  | nil => cases i <;> cases h
  | cons b s ih =>
    by_cases hb : isDigit b = true
    · cases i with
      | zero =>
        rw [decodeDigits, if_pos hb] at h
        obtain ⟨-, -, h⟩ := bind_eq_ok.1 h
        by_cases hs : startsWithDigit s = true
        · rw [if_pos hs] at h
          cases h
        · rw [if_neg hs] at h
          cases h
          exact Nat.le_succ _
      | succ i =>
        rw [decodeDigits, if_pos hb] at h
        exact Nat.le_succ_of_le (ih h)
    · cases i with
      | zero | succ i =>
        rw [decodeDigits, if_neg hb] at h
        cases h
        exact le_rfl

theorem takeSign_le (s : Bytes) : (takeSign s).2.length ≤ s.length := by
  cases s with
  | nil => exact le_rfl
  | cons b s =>
    rw [takeSign]
    split_ifs
    · exact Nat.le_succ _
    · exact le_rfl

theorem takeEnd_eq_ok : takeEnd value s = .ok (v, rest) ↔ v = value ∧ s = endToken :: rest := by
  cases s with
  | nil => simp [takeEnd]
  | cons b s =>
    rw [takeEnd]
    split_ifs with hb
    · simp [hb, eq_comm]
    · simp [hb]

theorem takeString_eq_ok {len : ℤ} : takeString len s = .ok (key, rest) ↔
    (key.length : ℤ) = max len 0 ∧ s = colon :: (key ++ rest) := by
  cases s with
  | nil => simp [takeString]
  | cons b s =>
    rw [takeString]
    split_ifs with hb hlen
    · simp [hb]
    · refine iff_of_false (by simp) fun h => ?_
      have hs := congrArg List.length (List.cons.inj h.2).2
      rw [List.length_append] at hs
      omega
    · rw [Except.ok.injEq, Prod.mk.injEq, not_not.1 hb, List.cons.injEq, and_iff_right rfl]
      constructor
      · intro h
        rw [← h.1, ← h.2, List.take_append_drop, List.length_take]
        exact ⟨by omega, rfl⟩
      · intro h
        have hn : len.toNat = key.length := by omega
        rw [h.2, hn]
        exact ⟨List.take_left, List.drop_left⟩

theorem decodeInt_le (h : decodeInt s = .ok (v, rest)) : rest.length ≤ s.length := by
  obtain ⟨⟨value, r⟩, hr, h⟩ := bind_eq_ok.1 h
  have hle := (decodeDigits_le hr).trans (takeSign_le s)
  rw [(takeEnd_eq_ok.1 h).2, List.length_cons] at hle
  omega

theorem decodeStr_lt (h : decodeStr s = .ok (key, rest)) : rest.length < s.length := by
  obtain ⟨⟨len, r⟩, hr, h⟩ := bind_eq_ok.1 h
  have hle := decodeDigits_le hr
  rw [(takeString_eq_ok.1 h).2, List.length_cons, List.length_append] at hle
  omega

@[simp] theorem Decoder.rest_store (d : Decoder) (key : Bytes) (thing : Bencode) : (d.store key thing).rest = d.rest := by
  rw [store]
  split <;> rfl

theorem Decoder.decodeKey_le (h : d.decodeKey = .ok (key, t)) : t.rest.length ≤ d.rest.length := by
  rw [decodeKey] at h
  split at h
  · split_ifs at h
    obtain ⟨⟨k, r⟩, hr, h⟩ := bind_eq_ok.1 h
    have hlt := decodeStr_lt hr
    simp only at h
    split_ifs at h
    cases h
    exact hlt.le
  · cases h
    exact le_rfl

theorem Decoder.decodeValue_lt (h : d.decodeValue key = .ok t) : t.rest.length < d.rest.length := by
  rw [decodeValue] at h
  split at h
  · cases h
  · rename_i b r hrest
    rw [hrest, List.length_cons]
    split_ifs at h
    · obtain ⟨⟨n, r'⟩, hr, h⟩ := bind_eq_ok.1 h
      obtain ⟨-, -, h⟩ := bind_eq_ok.1 h
      have hle := decodeInt_le hr
      cases h
      rw [rest_store]
      exact Nat.lt_succ_of_le hle
    · obtain ⟨-, -, h⟩ := bind_eq_ok.1 h
      cases h
      exact Nat.lt_succ_self _
    · obtain ⟨-, -, h⟩ := bind_eq_ok.1 h
      cases h
      exact Nat.lt_succ_self _
    · obtain ⟨⟨s, r'⟩, hr, h⟩ := bind_eq_ok.1 h
      obtain ⟨-, -, h⟩ := bind_eq_ok.1 h
      have hlt := decodeStr_lt hr
      cases h
      rw [rest_store]
      exact hlt

/-- every turn of the loop reads a byte -/
theorem Decoder.step_lt (h : d.step = .ok t) : t.rest.length < d.rest.length := by
  rw [step] at h
  split at h
  · cases h
  · rename_i b r hrest
    split_ifs at h
    · split at h
      · cases h
      · cases h
        rw [rest_store, hrest]
        exact Nat.lt_succ_self _
    · obtain ⟨⟨key, u⟩, hu, h⟩ := bind_eq_ok.1 h
      exact Nat.lt_of_lt_of_le (decodeValue_lt h) (decodeKey_le hu)

end Shorter

/-- the loop of `basic_decode` -/
def basicDecode (d : Decoder) : Except DecodeError Decoder :=
  match _h : d.step with
  | .error e => .error e
  | .ok t => if t.state.isEmpty then .ok t else basicDecode t
termination_by d.rest.length
decreasing_by exact Decoder.step_lt _h

/-- what comes after the value is ignored -/
def decode (s : Bytes) : Except DecodeError Bencode := do
  let d ← basicDecode ⟨s, [], .integer 0⟩
  return d.result

end Bencode

end SimpleTorrent
