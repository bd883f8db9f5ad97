/-
How a value can be spelled.

`bencode.hpp` accepts more than one text for a value: numbers may have zeros in front, zero may have a sign or no digit
at all, and the keys of a dictionary may come in any order. A `Spelling` is the syntax tree of such a text.

- `text_inj`: a text has one syntax tree at most, whatever follows it.
- `Canonical`: the spelling that `encode` writes. `spell`: that of a value.
- `Accepted`: what the decoder reads. `Sorted`: the values that it makes of it.
- `encode_eq_text_iff`: the text of an accepted value is written again exactly if its spelling is canonical.
-/
import SimpleTorrent.Model.Bencode

namespace SimpleTorrent.Bencode

open Decimal

/-! ## Syntax -/

/-- digits, with zeros in front or without -/
structure Numeral where
  text : Bytes
  isDigit : ∀ b ∈ text, isDigit b = true

def Numeral.value (n : Numeral) : ℕ := Decimal.value n.text

/-- a string behind its length -/
structure Chars where
  length : Numeral
  bytes : Bytes
  nonempty : length.text ≠ []
  value_length : length.value = bytes.length

mutual

inductive Spelling where
  | integer (negative : Bool) (n : Numeral)
  | string (s : Chars)
  | list (items : Items)
  | dict (fields : Fields)

inductive Items where
  | nil
  | cons (head : Spelling) (tail : Items)

inductive Fields where
  | nil
  | cons (key : Chars) (value : Spelling) (tail : Fields)

end

/-! ## Texts -/

def Chars.text (s : Chars) : Bytes := s.length.text ++ colon :: s.bytes

def sign (negative : Bool) : Bytes := if negative then [minus] else []

mutual

def Spelling.text : Spelling → Bytes
  | .integer negative n => integerToken :: (sign negative ++ (n.text ++ [endToken]))
  | .string s => s.text
  | .list items => listToken :: (items.text ++ [endToken])
  | .dict fields => dictToken :: (fields.text ++ [endToken])

def Items.text : Items → Bytes
  | .nil => []
  | .cons head tail => head.text ++ tail.text

def Fields.text : Fields → Bytes
  | .nil => []
  | .cons key value tail => key.text ++ (value.text ++ tail.text)

end

/-! ## One tree for a text -/

theorem Numeral.ext {m n : Numeral} (h : m.text = n.text) : m = n := by
  cases m
  cases n
  cases h
  rfl

theorem Chars.ext {s t : Chars} (hlength : s.length = t.length) (hbytes : s.bytes = t.bytes) : s = t := by
  cases s
  cases t
  cases hlength
  cases hbytes
  rfl

/-- numerals end where something else follows -/
theorem Numeral.text_inj {m n : Numeral} {b c : UInt8} {r s : Bytes} (hb : Decimal.isDigit b = false)
    (hc : Decimal.isDigit c = false) (h : m.text ++ b :: r = n.text ++ c :: s) : m = n ∧ b :: r = c :: s := by
  have hinj := append_inj_of_digits m.isDigit n.isDigit (by simpa using hb) (by simpa using hc) h
  exact ⟨Numeral.ext hinj.1, hinj.2⟩

theorem Chars.text_inj {s t : Chars} {q r : Bytes} (h : s.text ++ q = t.text ++ r) : s = t ∧ q = r := by
  rw [text, text, List.append_assoc, List.append_assoc, List.cons_append, List.cons_append] at h
  obtain ⟨hlength, hrest⟩ := Numeral.text_inj (by decide) (by decide) h
  have hbytes := List.append_inj (List.cons.inj hrest).2 (by rw [← s.value_length, ← t.value_length, hlength])
  exact ⟨Chars.ext hlength hbytes.1, hbytes.2⟩

/-- what the first byte of a text tells: a digit starts a string -/
def tag (b : UInt8) : Option UInt8 := if isDigit b then none else some b

def Spelling.tag : Spelling → Option UInt8
  | .integer _ _ => some integerToken
  | .string _ => none
  | .list _ => some listToken
  | .dict _ => some dictToken

theorem Chars.exists_text (s : Chars) : ∃ b rest, s.text = b :: rest ∧ isDigit b = true := by
  obtain ⟨b, rest, hcons⟩ := List.exists_cons_of_ne_nil s.nonempty
  refine ⟨b, rest ++ colon :: s.bytes, by rw [text, hcons]; rfl, ?_⟩
  exact s.length.isDigit b (hcons ▸ List.mem_cons_self)

theorem Spelling.exists_text (t : Spelling) : ∃ b rest, t.text = b :: rest ∧ Bencode.tag b = t.tag := by
  cases t with
  | integer negative n => exact ⟨_, _, by rw [text], rfl⟩
  | string s =>
    obtain ⟨b, rest, htext, hb⟩ := s.exists_text
    exact ⟨b, rest, by rw [text, htext], by rw [Bencode.tag, if_pos hb]; rfl⟩
  | list items => exact ⟨_, _, by rw [text], rfl⟩
  | dict fields => exact ⟨_, _, by rw [text], rfl⟩

/-- texts with the same first byte are of the same type -/
theorem Spelling.tag_eq {t u : Spelling} {q r : Bytes} (h : t.text ++ q = u.text ++ r) : t.tag = u.tag := by
  obtain ⟨b, rest, htext, hb⟩ := t.exists_text
  obtain ⟨c, rest', htext', hc⟩ := u.exists_text
  rw [htext, htext', List.cons_append, List.cons_append, List.cons.injEq] at h
  rw [← hb, ← hc, h.1]

/-- no text starts as a list or a dictionary ends -/
theorem Spelling.text_ne_end (t : Spelling) (q r : Bytes) : t.text ++ q ≠ endToken :: r := by
  intro h
  obtain ⟨b, rest, htext, hb⟩ := t.exists_text
  rw [htext, List.cons_append, List.cons.injEq] at h
  rw [h.1] at hb
  cases t with
  | string s => cases hb
  | integer | list | dict => exact absurd (Option.some.inj hb) (by decide)

theorem Chars.text_ne_end (s : Chars) (q r : Bytes) : s.text ++ q ≠ endToken :: r := by
  intro h
  obtain ⟨b, rest, htext, hb⟩ := s.exists_text
  rw [htext, List.cons_append, List.cons.injEq] at h
  rw [h.1] at hb
  exact absurd hb (by decide)

theorem integer_inj {a b : Bool} {m n : Numeral} {q r : Bytes}
    (h : sign a ++ (m.text ++ endToken :: q) = sign b ++ (n.text ++ endToken :: r)) : a = b ∧ m = n ∧ q = r := by
  have hsign : ∀ (n : Numeral) (r t : Bytes), n.text ++ endToken :: r ≠ minus :: t := by
    intro n r t h
    cases htext : n.text with
    | nil =>
      rw [htext, List.nil_append, List.cons.injEq] at h
      exact absurd h.1 (by decide)
    | cons b rest =>
      have hb := n.isDigit b (htext ▸ List.mem_cons_self)
      rw [htext, List.cons_append, List.cons.injEq] at h
      rw [h.1] at hb
      exact absurd hb (by decide)
  have hdigits : ∀ {q r : Bytes}, m.text ++ endToken :: q = n.text ++ endToken :: r → m = n ∧ q = r := by
    intro q r h
    obtain ⟨hmn, hrest⟩ := Numeral.text_inj (by decide) (by decide) h
    exact ⟨hmn, (List.cons.inj hrest).2⟩
  cases a <;> cases b
  · exact ⟨rfl, hdigits h⟩
  · exact absurd h (hsign m q _)
  · exact absurd h.symm (hsign n r _)
  · exact ⟨rfl, hdigits (List.cons.inj h).2⟩

theorem Spelling.eq_integer {t : Spelling} (h : t.tag = some integerToken) : ∃ negative n, t = .integer negative n := by
  cases t with
  | integer negative n => exact ⟨negative, n, rfl⟩
  | string s => cases h
  | list | dict => exact absurd (Option.some.inj h) (by decide)

theorem Spelling.eq_string {t : Spelling} (h : t.tag = none) : ∃ s, t = .string s := by
  cases t with
  | string s => exact ⟨s, rfl⟩
  | integer | list | dict => cases h

theorem Spelling.eq_list {t : Spelling} (h : t.tag = some listToken) : ∃ items, t = .list items := by
  cases t with
  | list items => exact ⟨items, rfl⟩
  | string s => cases h
  | integer | dict => exact absurd (Option.some.inj h) (by decide)

theorem Spelling.eq_dict {t : Spelling} (h : t.tag = some dictToken) : ∃ fields, t = .dict fields := by
  cases t with
  | dict fields => exact ⟨fields, rfl⟩
  | string s => cases h
  | integer | list => exact absurd (Option.some.inj h) (by decide)

mutual

/-- **Unambiguity.** A text has one syntax tree at most. -/
theorem Spelling.text_inj (t : Spelling) {u : Spelling} {q r : Bytes} (h : t.text ++ q = u.text ++ r) :
    t = u ∧ q = r := by
  have htag := (Spelling.tag_eq h).symm
  match t with
  | .integer a m =>
    obtain ⟨b, n, rfl⟩ := Spelling.eq_integer htag
    simp only [Spelling.text, List.cons_append, List.append_assoc, List.cons.injEq, true_and, List.nil_append] at h
    obtain ⟨rfl, rfl, hrest⟩ := integer_inj h
    exact ⟨rfl, hrest⟩
  | .string s =>
    obtain ⟨s', rfl⟩ := Spelling.eq_string htag
    rw [Spelling.text, Spelling.text] at h
    obtain ⟨rfl, hrest⟩ := Chars.text_inj h
    exact ⟨rfl, hrest⟩
  | .list items =>
    obtain ⟨items', rfl⟩ := Spelling.eq_list htag
    simp only [Spelling.text, List.cons_append, List.append_assoc, List.cons.injEq, true_and, List.nil_append] at h
    obtain ⟨rfl, hrest⟩ := Items.text_inj items h
    exact ⟨rfl, hrest⟩
  | .dict fields =>
    obtain ⟨fields', rfl⟩ := Spelling.eq_dict htag
    simp only [Spelling.text, List.cons_append, List.append_assoc, List.cons.injEq, true_and, List.nil_append] at h
    obtain ⟨rfl, hrest⟩ := Fields.text_inj fields h
    exact ⟨rfl, hrest⟩

theorem Items.text_inj (a : Items) {b : Items} {q r : Bytes} (h : a.text ++ endToken :: q = b.text ++ endToken :: r) :
    a = b ∧ q = r := by
  match a with
  | .nil =>
    cases b with
    | nil => exact ⟨rfl, (List.cons.inj h).2⟩
    | cons head tail =>
      rw [Items.text, Items.text, List.append_assoc] at h
      exact absurd h.symm (head.text_ne_end _ _)
  | .cons head tail =>
    cases b with
    | nil =>
      rw [Items.text, Items.text, List.append_assoc] at h
      exact absurd h (head.text_ne_end _ _)
    | cons head' tail' =>
      rw [Items.text, Items.text, List.append_assoc, List.append_assoc] at h
      obtain ⟨rfl, htail⟩ := Spelling.text_inj head h
      obtain ⟨rfl, hrest⟩ := Items.text_inj tail htail
      exact ⟨rfl, hrest⟩

theorem Fields.text_inj (a : Fields) {b : Fields} {q r : Bytes}
    (h : a.text ++ endToken :: q = b.text ++ endToken :: r) : a = b ∧ q = r := by
  match a with
  | .nil =>
    cases b with
    | nil => exact ⟨rfl, (List.cons.inj h).2⟩
    | cons key value tail =>
      rw [Fields.text, Fields.text, List.append_assoc] at h
      exact absurd h.symm (key.text_ne_end _ _)
  | .cons key value tail =>
    cases b with
    | nil =>
      rw [Fields.text, Fields.text, List.append_assoc] at h
      exact absurd h (key.text_ne_end _ _)
    | cons key' value' tail' =>
      simp only [Fields.text, List.append_assoc] at h
      obtain ⟨rfl, hvalue⟩ := Chars.text_inj h
      obtain ⟨rfl, htail⟩ := Spelling.text_inj value hvalue
      obtain ⟨rfl, hrest⟩ := Fields.text_inj tail htail
      exact ⟨rfl, hrest⟩

end

/-! ## Dictionaries -/

def keys (d : List (Bytes × Bencode)) : List Bytes := d.map (·.1)

@[simp] theorem keys_nil : keys [] = [] := rfl

@[simp] theorem keys_cons (entry : Bytes × Bencode) (d : List (Bytes × Bencode)) :
    keys (entry :: d) = entry.1 :: keys d := rfl

section Emplace

variable {d : List (Bytes × Bencode)} {key k : Bytes} {value : Bencode}

theorem mem_keys_emplace : k ∈ keys (emplace key value d) ↔ k = key ∨ k ∈ keys d := by
  induction d with
  | nil => simp [emplace]
  | cons entry d ih =>
    rw [emplace]
    split_ifs
    · simp
    · rw [keys_cons, keys_cons, List.mem_cons, List.mem_cons, ih, or_left_comm]

theorem pairwise_emplace (h : (keys d).Pairwise (· < ·)) (hnew : key ∉ keys d) :
    (keys (emplace key value d)).Pairwise (· < ·) := by
  induction d with
  | nil => simp [emplace]
  | cons entry d ih =>
    rw [keys_cons, List.pairwise_cons] at h
    rw [keys_cons, List.mem_cons, not_or] at hnew
    rw [emplace]
    split_ifs with hlt
    · rw [keys_cons, keys_cons, List.pairwise_cons, List.pairwise_cons]
      refine ⟨fun k hk => ?_, h⟩
      rcases List.mem_cons.1 hk with rfl | hk
      · exact hlt
      · exact List.lt_trans hlt (h.1 k hk)
    · rw [keys_cons, List.pairwise_cons]
      refine ⟨fun k hk => ?_, ih h.2 hnew.2⟩
      rcases mem_keys_emplace.1 hk with rfl | hk
      · by_contra hge
        exact hnew.1 (List.le_antisymm (List.not_lt.1 hge) (List.not_lt.1 hlt))
      · exact h.1 k hk

theorem lookup_emplace (hnew : key ∉ keys d) :
    (emplace key value d).lookup k = if k = key then some value else d.lookup k := by
  induction d with
  | nil =>
    by_cases hk : k = key
    · rw [emplace, hk, List.lookup_cons_self, if_pos rfl]
    · rw [emplace, List.lookup_cons, beq_false_of_ne hk, if_neg hk]
  | cons entry d ih =>
    rw [keys_cons, List.mem_cons, not_or] at hnew
    rw [emplace]
    split_ifs with hlt hk hk
    · rw [hk, List.lookup_cons_self]
    · rw [List.lookup_cons, beq_false_of_ne hk]
    · rw [List.lookup_cons, beq_false_of_ne (hk ▸ hnew.1), ih hnew.2, if_pos hk]
    · rw [List.lookup_cons, List.lookup_cons, ih hnew.2, if_neg hk]

/-- a key above all others comes last -/
theorem emplace_of_forall_lt (h : ∀ k ∈ keys d, k < key) : emplace key value d = d ++ [(key, value)] := by
  induction d with
  | nil => rfl
  | cons entry d ih =>
    rw [keys_cons, List.forall_mem_cons] at h
    rw [emplace, if_neg (List.lt_asymm h.1), ih h.2, List.cons_append]

end Emplace

/-! ## Values -/

def integerValue (negative : Bool) (n : Numeral) : ℤ := if negative then -n.value else n.value

mutual

def Spelling.value : Spelling → Bencode
  | .integer negative n => .integer (integerValue negative n)
  | .string s => .string s.bytes
  | .list items => .list items.values
  | .dict fields => .dict (fields.entries [])

def Items.values : Items → List Bencode
  | .nil => []
  | .cons head tail => head.value :: tail.values

/-- the entries of a dictionary, to which these are added -/
def Fields.entries : Fields → List (Bytes × Bencode) → List (Bytes × Bencode)
  | .nil, d => d
  | .cons key value tail, d => tail.entries (emplace key.bytes value.value d)

end

def Fields.keys : Fields → List Bytes
  | .nil => []
  | .cons key _ tail => key.bytes :: tail.keys

/-- a length has 20 digits at most, and fits into a `size_t` -/
def Chars.Accepted (s : Chars) : Prop :=
  s.length.text.length ≤ sizeT.digits10 + 1 ∧ (s.bytes.length : ℤ) ≤ sizeT.max

mutual

/-- what the decoder accepts: numbers within their limits, and different keys -/
def Spelling.Accepted : Spelling → Prop
  | .integer negative n => n.text.length ≤ longLong.digits10 + 1 ∧
      longLong.min ≤ integerValue negative n ∧ integerValue negative n ≤ longLong.max
  | .string s => s.Accepted
  | .list items => items.Accepted
  | .dict fields => fields.keys.Nodup ∧ fields.Accepted

def Items.Accepted : Items → Prop
  | .nil => True
  | .cons head tail => head.Accepted ∧ tail.Accepted

def Fields.Accepted : Fields → Prop
  | .nil => True
  | .cons key value tail => key.Accepted ∧ value.Accepted ∧ tail.Accepted

end

mutual

/-- the keys of every dictionary are in order -/
def Sorted : Bencode → Prop
  | .integer _ => True
  | .string _ => True
  | .list l => SortedList l
  | .dict d => (keys d).Pairwise (· < ·) ∧ SortedDict d

def SortedList : List Bencode → Prop
  | [] => True
  | value :: l => Sorted value ∧ SortedList l

def SortedDict : List (Bytes × Bencode) → Prop
  | [] => True
  | (_, value) :: d => Sorted value ∧ SortedDict d

end

theorem sortedDict_emplace {d : List (Bytes × Bencode)} {key : Bytes} {value : Bencode} (hv : Sorted value)
    (hd : SortedDict d) : SortedDict (emplace key value d) := by
  induction d with
  | nil => exact ⟨hv, trivial⟩
  | cons entry d ih =>
    rw [SortedDict] at hd
    rw [emplace]
    split_ifs
    · exact ⟨hv, hd⟩
    · exact ⟨hd.1, ih hd.2⟩

mutual

/-- a value that was decoded has its keys in order -/
theorem Spelling.Accepted.sorted (t : Spelling) (h : t.Accepted) : Sorted t.value := by
  match t with
  | .integer _ _ => trivial
  | .string _ => trivial
  | .list items => exact Items.Accepted.sorted items h
  | .dict fields => exact Fields.Accepted.sorted fields h.2 h.1 (by simp) .nil trivial

theorem Items.Accepted.sorted (items : Items) (h : items.Accepted) : SortedList items.values := by
  match items with
  | .nil => trivial
  | .cons head tail => exact ⟨Spelling.Accepted.sorted head h.1, Items.Accepted.sorted tail h.2⟩

theorem Fields.Accepted.sorted (fields : Fields) {d : List (Bytes × Bencode)} (h : fields.Accepted)
    (hnodup : fields.keys.Nodup) (hnew : ∀ key ∈ fields.keys, key ∉ Bencode.keys d)
    (hd : (Bencode.keys d).Pairwise (· < ·)) (hsorted : SortedDict d) :
    (Bencode.keys (fields.entries d)).Pairwise (· < ·) ∧ SortedDict (fields.entries d) := by
  match fields with
  | .nil => exact ⟨hd, hsorted⟩
  | .cons key value tail =>
    rw [Fields.keys, List.nodup_cons] at hnodup
    rw [Fields.keys, List.forall_mem_cons] at hnew
    refine Fields.Accepted.sorted tail h.2.2 hnodup.2 (fun k hk => ?_) (pairwise_emplace hd hnew.1)
      (sortedDict_emplace (Spelling.Accepted.sorted value h.2.1) hsorted)
    rw [mem_keys_emplace, not_or]
    exact ⟨fun heq => hnodup.1 (heq ▸ hk), hnew.2 k hk⟩

end

/-! ## Canonical spellings -/

/-- a length without needless zeros -/
def Chars.Canonical (s : Chars) : Prop := Plain s.length.text

mutual

/-- no needless zeros, no sign before zero, and the keys in order -/
def Spelling.Canonical : Spelling → Prop
  | .integer negative n => Plain n.text ∧ (negative = true → n.text ≠ [48])
  | .string s => s.Canonical
  | .list items => items.Canonical
  | .dict fields => fields.keys.Pairwise (· < ·) ∧ fields.Canonical

def Items.Canonical : Items → Prop
  | .nil => True
  | .cons head tail => head.Canonical ∧ tail.Canonical

def Fields.Canonical : Fields → Prop
  | .nil => True
  | .cons key value tail => key.Canonical ∧ value.Canonical ∧ tail.Canonical

end

def Numeral.ofNat (n : ℕ) : Numeral := ⟨digits n, fun _ hb => isDigit_of_mem_digits hb⟩

def Chars.ofBytes (s : Bytes) : Chars := ⟨.ofNat s.length, s, digits_ne_nil _, value_digits _⟩

def spellInteger : ℤ → Spelling
  | .ofNat n => .integer false (.ofNat n)
  | .negSucc n => .integer true (.ofNat (n + 1))

mutual

/-- the spelling that `encode` writes -/
def spell : Bencode → Spelling
  | .integer n => spellInteger n
  | .string s => .string (.ofBytes s)
  | .list l => .list (spellList l)
  | .dict d => .dict (spellDict d)

def spellList : List Bencode → Items
  | [] => .nil
  | value :: l => .cons (spell value) (spellList l)

def spellDict : List (Bytes × Bencode) → Fields
  | [] => .nil
  | (key, value) :: d => .cons (.ofBytes key) (spell value) (spellDict d)

end

theorem text_spellInteger (n : ℤ) : (spellInteger n).text = encodeInteger n := by
  cases n with
  | ofNat n => rfl
  | negSucc n => rfl

mutual

theorem text_spell (v : Bencode) : (spell v).text = encode v := by
  match v with
  | .integer n => exact text_spellInteger n
  | .string s => rfl
  | .list l => rw [spell, Spelling.text, text_spellList l, encode, List.cons_append]
  | .dict d => rw [spell, Spelling.text, text_spellDict d, encode, List.cons_append]

theorem text_spellList (l : List Bencode) : (spellList l).text = encodeList l := by
  match l with
  | [] => rfl
  | value :: l => rw [spellList, Items.text, text_spell value, text_spellList l, encodeList]

theorem text_spellDict (d : List (Bytes × Bencode)) : (spellDict d).text = encodeDict d := by
  match d with
  | [] => rfl
  | (key, value) :: d =>
    rw [spellDict, Fields.text, text_spell value, text_spellDict d, encodeDict, List.append_assoc]
    rfl

end

theorem keys_spellDict (d : List (Bytes × Bencode)) : (spellDict d).keys = keys d := by
  induction d with
  | nil => rfl
  | cons entry d ih =>
    rw [spellDict, Fields.keys, ih]
    rfl

theorem canonical_spellInteger (n : ℤ) : (spellInteger n).Canonical := by
  cases n with
  | ofNat n => exact ⟨plain_digits n, fun h => by cases h⟩
  | negSucc n =>
    refine ⟨plain_digits _, fun _ hzero => ?_⟩
    have hvalue := value_digits (n + 1)
    rw [show digits (n + 1) = [48] from hzero] at hvalue
    exact absurd hvalue (Nat.succ_ne_zero n).symm

mutual

theorem canonical_spell (v : Bencode) (h : Sorted v) : (spell v).Canonical := by
  match v with
  | .integer n => exact canonical_spellInteger n
  | .string s => exact plain_digits _
  | .list l => exact canonical_spellList l h
  | .dict d =>
    refine ⟨?_, canonical_spellDict d h.2⟩
    rw [keys_spellDict]
    exact h.1

theorem canonical_spellList (l : List Bencode) (h : SortedList l) : (spellList l).Canonical := by
  match l with
  | [] => trivial
  | value :: l => exact ⟨canonical_spell value h.1, canonical_spellList l h.2⟩

theorem canonical_spellDict (d : List (Bytes × Bencode)) (h : SortedDict d) : (spellDict d).Canonical := by
  match d with
  | [] => trivial
  | (key, value) :: d => exact ⟨plain_digits _, canonical_spell value h.1, canonical_spellDict d h.2⟩

end

/-! ## What is written again -/

theorem Numeral.ofNat_value {n : Numeral} (h : Plain n.text) : Numeral.ofNat n.value = n :=
  Numeral.ext ((plain_iff n.isDigit).1 h)

theorem Chars.ofBytes_bytes {s : Chars} (h : s.Canonical) : Chars.ofBytes s.bytes = s := by
  refine Chars.ext ?_ rfl
  have hlength := Numeral.ofNat_value h
  rwa [s.value_length] at hlength

theorem spellInteger_value {negative : Bool} {n : Numeral} (h : (Spelling.integer negative n).Canonical) :
    spellInteger (integerValue negative n) = .integer negative n := by
  obtain ⟨hplain, hzero⟩ := h
  have hn := Numeral.ofNat_value hplain
  cases negative with
  | false =>
    rw [show integerValue false n = Int.ofNat n.value from rfl, spellInteger, hn]
  | true =>
    cases hvalue : n.value with
    | zero =>
      rw [hvalue] at hn
      exact absurd (congrArg Numeral.text hn).symm (hzero rfl)
    | succ m =>
      rw [hvalue] at hn
      have hneg : integerValue true n = Int.negSucc m := by
        rw [integerValue, if_pos rfl, hvalue]
        rfl
      rw [hneg, spellInteger, hn]

/-- the entries of a dictionary in the order in which they are spelled -/
def Fields.pairs : Fields → List (Bytes × Bencode)
  | .nil => []
  | .cons key value tail => (key.bytes, value.value) :: tail.pairs

/-- keys that come in order stay where they are -/
theorem Fields.entries_of_pairwise (fields : Fields) {d : List (Bytes × Bencode)} (h : fields.keys.Pairwise (· < ·))
    (hd : ∀ k ∈ fields.keys, ∀ k' ∈ Bencode.keys d, k' < k) : fields.entries d = d ++ fields.pairs := by
  match fields with
  | .nil => exact (List.append_nil d).symm
  | .cons key value tail =>
    rw [keys, List.pairwise_cons] at h
    rw [keys, List.forall_mem_cons] at hd
    have htail : ∀ k ∈ tail.keys, ∀ k' ∈ Bencode.keys (d ++ [(key.bytes, value.value)]), k' < k := by
      intro k hk k' hk'
      rw [Bencode.keys, List.map_append, List.mem_append] at hk'
      rcases hk' with hk' | hk'
      · exact hd.2 k hk k' hk'
      · rw [List.map_singleton, List.mem_singleton] at hk'
        exact hk' ▸ h.1 k hk
    rw [entries, emplace_of_forall_lt hd.1, Fields.entries_of_pairwise tail h.2 htail, pairs, List.append_assoc,
      List.singleton_append]

mutual

/-- a canonical spelling is that of its value -/
theorem Spelling.Canonical.spell_value (t : Spelling) (h : t.Canonical) : spell t.value = t := by
  match t with
  | .integer negative n => exact spellInteger_value h
  | .string s => rw [Spelling.value, spell, Chars.ofBytes_bytes h]
  | .list items => rw [Spelling.value, spell, Items.Canonical.spell_values items h]
  | .dict fields =>
    rw [Spelling.value, fields.entries_of_pairwise h.1 (by simp), List.nil_append, spell,
      Fields.Canonical.spell_pairs fields h.2]

theorem Items.Canonical.spell_values (items : Items) (h : items.Canonical) : spellList items.values = items := by
  match items with
  | .nil => rfl
  | .cons head tail =>
    rw [Items.values, spellList, Spelling.Canonical.spell_value head h.1, Items.Canonical.spell_values tail h.2]

theorem Fields.Canonical.spell_pairs (fields : Fields) (h : fields.Canonical) : spellDict fields.pairs = fields := by
  match fields with
  | .nil => rfl
  | .cons key value tail =>
    rw [Fields.pairs, spellDict, Chars.ofBytes_bytes h.1, Spelling.Canonical.spell_value value h.2.1,
      Fields.Canonical.spell_pairs tail h.2.2]

end

theorem value_spellInteger (n : ℤ) : (spellInteger n).value = .integer n := by
  cases n with
  | ofNat n =>
    show Bencode.integer (Decimal.value (digits n) : ℤ) = _
    rw [value_digits]
    rfl
  | negSucc n =>
    show Bencode.integer (-(Decimal.value (digits (n + 1)) : ℤ)) = _
    rw [value_digits]
    rfl

mutual

/-- a value whose keys are in order is that of its spelling -/
theorem value_spell (v : Bencode) (h : Sorted v) : (spell v).value = v := by
  match v with
  | .integer n => exact value_spellInteger n
  | .string s => rfl
  | .list l => rw [spell, Spelling.value, values_spellList l h]
  | .dict d =>
    have hkeys : (spellDict d).keys.Pairwise (· < ·) := by
      rw [keys_spellDict]
      exact h.1
    rw [spell, Spelling.value, Fields.entries_of_pairwise _ hkeys (by simp), List.nil_append, pairs_spellDict d h.2]

theorem values_spellList (l : List Bencode) (h : SortedList l) : (spellList l).values = l := by
  match l with
  | [] => rfl
  | value :: l => rw [spellList, Items.values, value_spell value h.1, values_spellList l h.2]

theorem pairs_spellDict (d : List (Bytes × Bencode)) (h : SortedDict d) : (spellDict d).pairs = d := by
  match d with
  | [] => rfl
  | (key, value) :: d =>
    rw [spellDict, Fields.pairs, value_spell value h.1, pairs_spellDict d h.2]
    rfl

end

/-- **What is written again.** `encode` writes the text of an accepted value again exactly if it is spelled
canonically. -/
theorem encode_eq_text_iff {t : Spelling} (h : t.Accepted) : encode t.value = t.text ↔ t.Canonical := by
  constructor
  · intro hencode
    rw [← text_spell] at hencode
    have hspell := Spelling.text_inj (spell t.value) (q := []) (r := []) (congrArg (· ++ []) hencode)
    rw [← hspell.1]
    exact canonical_spell _ (h.sorted t)
  · intro hcanonical
    rw [← text_spell, hcanonical.spell_value t]

end SimpleTorrent.Bencode
