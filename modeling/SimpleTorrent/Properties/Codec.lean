/-
Bencoding as a format.

- `decode_iff`: what is decoded is read off one syntax tree at the start of the text, and off no other; every text with
  an accepted tree is decoded.
- `encode_append_inj`: `encode` is a prefix code, on all values.
- `Fits`: the keys of every dictionary in order, and numbers and lengths within their limits.
- `decodable_iff`: just these values come out of the decoder, and just these survive `encode` and `decode`, whatever
  follows. So what was decoded from any text, however it was spelled, can be encoded and decoded again.
-/
import SimpleTorrent.Bencode.Reading

namespace SimpleTorrent.Bencode

open Decimal

variable {text : Bytes} {v w : Bencode}

/-! ## What is decoded -/

/-- **The language of the decoder.** A text is decoded exactly if it starts with an accepted spelling; there is one such
spelling at most, and the value is that of the spelling. -/
theorem decode_iff (text : Bytes) (v : Bencode) : decode text = .ok v ↔
    ∃! p : Spelling × Bytes, p.1.Accepted ∧ text = p.1.text ++ p.2 ∧ v = p.1.value := by
  rw [decode_eq_ok]
  constructor
  · intro h
    obtain ⟨t, rest, ht, htext, hv⟩ := h
    refine ⟨(t, rest), ⟨ht, htext, hv⟩, fun p hp => ?_⟩
    obtain ⟨-, htext', -⟩ := hp
    obtain ⟨ht', hrest⟩ := Spelling.text_inj p.1 (htext'.symm.trans htext)
    exact Prod.ext ht' hrest
  · intro h
    obtain ⟨p, hp, -⟩ := h
    exact ⟨p.1, p.2, hp⟩

/-! ## A prefix code -/

theorem ofBytes_inj {a b : Bytes} (h : Chars.ofBytes a = Chars.ofBytes b) : a = b := congrArg Chars.bytes h

theorem spellInteger_inj {a b : ℤ} (h : spellInteger a = spellInteger b) : a = b := by
  have hvalue := congrArg Spelling.value h
  rw [value_spellInteger, value_spellInteger] at hvalue
  exact Bencode.integer.inj hvalue

mutual

/-- values that are spelled alike are the same -/
theorem spell_inj (v w : Bencode) (h : spell v = spell w) : v = w := by
  match v, w with
  | .integer a, .integer b => exact congrArg _ (spellInteger_inj h)
  | .string a, .string b => exact congrArg _ (ofBytes_inj (Spelling.string.inj h))
  | .list a, .list b => exact congrArg _ (spellList_inj a b (Spelling.list.inj h))
  | .dict a, .dict b => exact congrArg _ (spellDict_inj a b (Spelling.dict.inj h))
  | .integer a, .string _ | .integer a, .list _ | .integer a, .dict _ => cases a <;> cases h
  | .string _, .integer b | .list _, .integer b | .dict _, .integer b => cases b <;> cases h
  | .string _, .list _ | .string _, .dict _ | .list _, .string _ | .list _, .dict _ | .dict _, .string _
  | .dict _, .list _ => cases h

theorem spellList_inj (a b : List Bencode) (h : spellList a = spellList b) : a = b := by
  match a, b with
  | [], [] => rfl
  | [], _ :: _ => cases h
  | _ :: _, [] => cases h
  | v :: a, w :: b =>
    obtain ⟨hhead, htail⟩ := Items.cons.inj h
    rw [spell_inj v w hhead, spellList_inj a b htail]

theorem spellDict_inj (a b : List (Bytes × Bencode)) (h : spellDict a = spellDict b) : a = b := by
  match a, b with
  | [], [] => rfl
  | [], _ :: _ => cases h
  | _ :: _, [] => cases h
  | (k, v) :: a, (l, w) :: b =>
    obtain ⟨hkey, hvalue, htail⟩ := Fields.cons.inj h
    rw [ofBytes_inj hkey, spell_inj v w hvalue, spellDict_inj a b htail]

end

/-- **A prefix code**: of any values, with anything behind them. -/
theorem encode_append_inj (v w : Bencode) (r s : Bytes) : encode v ++ r = encode w ++ s ↔ v = w ∧ r = s := by
  constructor
  · intro h
    rw [← text_spell, ← text_spell] at h
    obtain ⟨hspell, hrest⟩ := Spelling.text_inj _ h
    exact ⟨spell_inj v w hspell, hrest⟩
  · rintro ⟨rfl, rfl⟩
    rfl

/-! ## Round trips -/

mutual

/-- what the types of the decoder can hold, with the keys of every dictionary in order -/
def Fits : Bencode → Prop
  | .integer n => longLong.min ≤ n ∧ n ≤ longLong.max
  | .string s => (s.length : ℤ) ≤ sizeT.max
  | .list l => FitsList l
  | .dict d => (keys d).Pairwise (· < ·) ∧ FitsDict d

def FitsList : List Bencode → Prop
  | [] => True
  | value :: l => Fits value ∧ FitsList l

def FitsDict : List (Bytes × Bencode) → Prop
  | [] => True
  | (key, value) :: d => (key.length : ℤ) ≤ sizeT.max ∧ Fits value ∧ FitsDict d

end

theorem fitsDict_emplace {d : List (Bytes × Bencode)} {key : Bytes} (hkey : (key.length : ℤ) ≤ sizeT.max)
    (hv : Fits v) (hd : FitsDict d) : FitsDict (emplace key v d) := by
  induction d with
  | nil => exact ⟨hkey, hv, trivial⟩
  | cons entry d ih =>
    rw [FitsDict] at hd
    rw [emplace]
    split_ifs
    · exact ⟨hkey, hv, hd⟩
    · exact ⟨hd.1, hd.2.1, ih hd.2.2⟩

mutual

/-- what is decoded fits -/
theorem Spelling.Accepted.fits (t : Spelling) (h : t.Accepted) : Fits t.value := by
  match t with
  | .integer _ _ => exact h.2
  | .string _ => exact h.2
  | .list items => exact Items.Accepted.fits items h
  | .dict fields =>
    have hsorted : Sorted (Spelling.dict fields).value := Spelling.Accepted.sorted (.dict fields) h
    exact ⟨hsorted.1, Fields.Accepted.fits fields h.2 trivial⟩

theorem Items.Accepted.fits (items : Items) (h : items.Accepted) : FitsList items.values := by
  match items with
  | .nil => trivial
  | .cons head tail => exact ⟨Spelling.Accepted.fits head h.1, Items.Accepted.fits tail h.2⟩

theorem Fields.Accepted.fits (fields : Fields) {d : List (Bytes × Bencode)} (h : fields.Accepted) (hd : FitsDict d) :
    FitsDict (fields.entries d) := by
  match fields with
  | .nil => exact hd
  | .cons key value tail =>
    exact Fields.Accepted.fits tail h.2.2 (fitsDict_emplace h.1.2 (Spelling.Accepted.fits value h.2.1) hd)

end

/-- a number below a power of ten has no more digits than that -/
theorem length_digits_le {n k : ℕ} (h : n < 10 ^ k) (hk : 0 < k) : (digits n).length ≤ k := by
  rw [digits, List.length_map]
  exact (Nat.length_toDigits_le_iff (by decide) hk).2 h

theorem accepted_ofBytes {s : Bytes} (h : (s.length : ℤ) ≤ sizeT.max) : (Chars.ofBytes s).Accepted := by
  have hmax : sizeT.max = 2 ^ 64 - 1 := rfl
  have hten : 10 ^ (sizeT.digits10 + 1) = 100000000000000000000 := by decide
  exact ⟨length_digits_le (by omega) (by decide), h⟩

theorem accepted_spellInteger {n : ℤ} (h : longLong.min ≤ n ∧ n ≤ longLong.max) : (spellInteger n).Accepted := by
  have hmin : longLong.min = -2 ^ 63 := rfl
  have hmax : longLong.max = 2 ^ 63 - 1 := rfl
  have hten : 10 ^ (longLong.digits10 + 1) = 10000000000000000000 := by decide
  have hvalue : ∀ negative m, spellInteger n = .integer negative m → integerValue negative m = n := by
    intro negative m hn
    have hspell := value_spellInteger n
    rw [hn] at hspell
    exact Bencode.integer.inj hspell
  cases n with
  | ofNat m =>
    refine ⟨length_digits_le ?_ (by decide), ?_⟩
    · rw [Int.ofNat_eq_natCast] at h
      omega
    · rw [hvalue _ _ rfl]
      exact h
  | negSucc m =>
    refine ⟨length_digits_le ?_ (by decide), ?_⟩
    · rw [Int.negSucc_eq] at h
      omega
    · rw [hvalue _ _ rfl]
      exact h

mutual

/-- what fits is in order, and its spelling is accepted -/
theorem Fits.accepted (v : Bencode) (h : Fits v) : Sorted v ∧ (spell v).Accepted := by
  match v with
  | .integer n => exact ⟨trivial, accepted_spellInteger h⟩
  | .string s => exact ⟨trivial, accepted_ofBytes h⟩
  | .list l => exact FitsList.accepted l h
  | .dict d =>
    obtain ⟨hsorted, hfields⟩ := FitsDict.accepted d h.2
    refine ⟨⟨h.1, hsorted⟩, ?_, hfields⟩
    rw [keys_spellDict]
    refine h.1.imp fun {a b} hlt hab => ?_
    exact List.lt_irrefl b (hab ▸ hlt)

theorem FitsList.accepted (l : List Bencode) (h : FitsList l) : SortedList l ∧ (spellList l).Accepted := by
  match l with
  | [] => exact ⟨trivial, trivial⟩
  | v :: l =>
    obtain ⟨hsorted, hv⟩ := Fits.accepted v h.1
    obtain ⟨hrest, hl⟩ := FitsList.accepted l h.2
    exact ⟨⟨hsorted, hrest⟩, hv, hl⟩

theorem FitsDict.accepted (d : List (Bytes × Bencode)) (h : FitsDict d) :
    SortedDict d ∧ (spellDict d).Accepted := by
  match d with
  | [] => exact ⟨trivial, trivial⟩
  | (key, v) :: d =>
    obtain ⟨hsorted, hv⟩ := Fits.accepted v h.2.1
    obtain ⟨hrest, hd⟩ := FitsDict.accepted d h.2.2
    exact ⟨⟨hsorted, hrest⟩, accepted_ofBytes h.1, hv, hd⟩

end

/-- **The values of the decoder.** A value comes out of the decoder, for some text, exactly if it fits; and exactly then
it survives `encode` and `decode`, whatever follows. -/
theorem decodable_iff (v : Bencode) :
    ((∃ text, decode text = .ok v) ↔ Fits v) ∧ ∀ rest, decode (encode v ++ rest) = .ok v ↔ Fits v := by
  have hfits : ∀ text, decode text = .ok v → Fits v := by
    intro text h
    obtain ⟨t, rest, ht, -, rfl⟩ := decode_sound h
    exact Spelling.Accepted.fits t ht
  have hround : Fits v → ∀ rest, decode (encode v ++ rest) = .ok v := by
    intro h rest
    obtain ⟨hsorted, haccepted⟩ := Fits.accepted v h
    exact decode_encode hsorted haccepted rest
  exact ⟨⟨fun ⟨text, h⟩ => hfits text h, fun h => ⟨_, hround h []⟩⟩, fun rest => ⟨hfits _, fun h => hround h rest⟩⟩

end SimpleTorrent.Bencode
