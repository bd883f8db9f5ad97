/-
`SHA1::update` and `SHA1::final` against the standard.

- `view_update`: an update absorbs its stream into the digest, the count of transformations and the buffer; so an object
  is fed like any chained compression.
- `update_append`: the pieces in which a message arrives do not matter.
- `Holds.final`: `final` pads what is in the buffer as the standard pads the whole message, in one block or in two.
-/
import SimpleTorrent.Hash.Rounds

namespace SimpleTorrent.Sha1

open Chaining
open SecureHash (Words octets words compress padding zeros)

/-! ## Updates -/

/-- the compression with the count of transformations, which wraps -/
def compressCounted : Words × UInt64 → List UInt8 → Words × UInt64 := counted (· + 1) compress

/-- an object as a chained compression sees it -/
def view (s : Sha1) : (Words × UInt64) × Bytes := ((wordsOfDigest s.digest, s.transforms), s.buffer)

theorem wordsOfDigest_injective : Function.Injective wordsOfDigest := by
  intro d d' h
  simp only [wordsOfDigest, Locals.ofDigest, Words.mk.injEq] at h
  obtain ⟨h0, h1, h2, h3, h4⟩ := h
  apply Vector.ext
  intro i hi
  interval_cases i
  · exact h0
  · exact h1
  · exact h2
  · exact h3
  · exact h4

/-- nothing of an object is hidden from the view -/
theorem view_injective : Function.Injective view := by
  intro s s' h
  obtain ⟨digest, buffer, transforms, short⟩ := s
  obtain ⟨digest', buffer', transforms', short'⟩ := s'
  simp only [view, Prod.mk.injEq] at h
  obtain ⟨⟨hdigest, rfl⟩, rfl⟩ := h
  rw [Sha1.mk.injEq]
  exact ⟨wordsOfDigest_injective hdigest, rfl, rfl⟩

/-- **Update.** The loop absorbs the stream: whole blocks are hashed, the rest waits in the buffer. -/
theorem view_update (s : Sha1) (input : Bytes) : view (s.update input) = feed 64 compressCounted (view s) input := by
  fun_induction update s input with
  | case1 s input buffer full ih =>
    have hblock : (s.buffer ++ input.take (64 - s.buffer.length)).length = 64 := full
    have hsplit : s.buffer ++ input =
        s.buffer ++ input.take (64 - s.buffer.length) ++ input.drop (64 - s.buffer.length) := by
      rw [List.append_assoc, List.take_append_drop]
    have hhashed : wordsOfDigest (transform s.digest (bufferToBlock buffer full)).1 =
        compress (wordsOfDigest s.digest) buffer := transform_bufferToBlock s.digest full
    rw [ih, feed, feed]
    simp only [view, List.nil_append]
    rw [hsplit, absorb_block (by decide) hblock, hhashed]
    rfl
  | case2 s input buffer full =>
    have hshort : buffer.length < 64 := filled_short s.short full
    have hlen : buffer.length = s.buffer.length + min (64 - s.buffer.length) input.length := by
      rw [← List.length_take, ← List.length_append]
      rfl
    have hbuffer : buffer = s.buffer ++ input := by
      have hall : input.take (64 - s.buffer.length) = input := List.take_of_length_le (by omega)
      change s.buffer ++ input.take (64 - s.buffer.length) = s.buffer ++ input
      rw [hall]
    rw [feed]
    simp only [view]
    rw [← hbuffer, absorb_short hshort]

/-- two updates are one with both streams -/
theorem update_append (s : Sha1) (xs ys : Bytes) : (s.update xs).update ys = s.update (xs ++ ys) := by
  apply view_injective
  rw [view_update, view_update, view_update, feed, feed, feed, ← absorb_append (by decide), List.append_assoc]

/-! ## The end of a message -/

theorem get_zeroed (block : Block) {n i : ℕ} (hn : n ≤ 14) (hi : i < n) :
    wordsOf ((List.range n).foldl (fun block i => block.put (index i) 0) block) i = 0 := by
  induction n with
  | zero => omega
  | succ n ih =>
    rw [List.range_succ, List.foldl_append]
    rcases Nat.lt_succ_iff_lt_or_eq.1 hi with hlt | rfl
    · have hne : index i ≠ index n := by
        rw [Ne, Fin.ext_iff]
        simp only [index, Fin.ofNat]
        omega
      exact (get_put_of_ne _ 0 hne).trans (ih (by omega) hlt)
    · exact get_put_self _ _ 0

/-- the length in bits, as the object computes it from its count and its buffer -/
theorem total_bits_eq (length : ℕ) :
    (UInt64.ofNat (length / 64) * UInt64.ofNat BLOCK_BYTES + UInt64.ofNat (length % 64)) * 8 =
      UInt64.ofNat (8 * length) := by
  have h8 : (8 : UInt64) = UInt64.ofNat 8 := rfl
  have h64 : BLOCK_BYTES = 64 := rfl
  rw [h8, h64, ← UInt64.ofNat_mul, ← UInt64.ofNat_add, ← UInt64.ofNat_mul, Nat.div_add_mod', Nat.mul_comm]

/-- the words of the length field are the two halves of the count -/
theorem words_length_field (bits : ℕ) :
    words (octets 8 bits) 0 = (UInt64.ofNat bits >>> 32).toUInt32 ∧
      words (octets 8 bits) 1 = (UInt64.ofNat bits).toUInt32 := by
  rw [SecureHash.octets_add 4 4 bits]
  constructor
  · rw [SecureHash.words_append_left _ (by rw [SecureHash.length_octets]), SecureHash.words_octets]
    apply UInt32.toNat_inj.1
    have h32 : (32 : UInt64).toNat % 64 = 32 := rfl
    rw [UInt32.toNat_ofNat', UInt64.toNat_toUInt32, UInt64.toNat_shiftRight, h32, UInt64.toNat_ofNat',
      Nat.shiftRight_eq_div_pow]
    omega
  · have hfour : (octets 4 (bits / 256 ^ 4)).length = 4 * 1 := SecureHash.length_octets _ _
    have hright := SecureHash.words_append_right (octets 4 bits) hfour 0
    rw [Nat.add_zero] at hright
    rw [hright, SecureHash.words_octets]
    apply UInt32.toNat_inj.1
    rw [UInt32.toNat_ofNat', UInt64.toNat_toUInt32, UInt64.toNat_ofNat']
    omega

/-- the last block: fourteen words of the message and its padding, and the length -/
theorem transform_last (digest : Digest) {block : Block} {front : Bytes} (hfront : front.length = 56)
    (hagree : ∀ i < 14, wordsOf block i = words front i) (bits : ℕ) :
    wordsOfDigest (transform digest ((block.put (index (BLOCK_INTS - 1)) (UInt64.ofNat bits).toUInt32).put
      (index (BLOCK_INTS - 2)) (UInt64.ofNat bits >>> 32).toUInt32)).1 =
      compress (wordsOfDigest digest) (front ++ octets 8 bits) := by
  obtain ⟨hhigh, hlow⟩ := words_length_field bits
  have h56 : front.length = 4 * 14 := hfront
  have h14 := SecureHash.words_append_right (octets 8 bits) h56 0
  have h15 := SecureHash.words_append_right (octets 8 bits) h56 1
  rw [transform_eq, compress]
  apply SecureHash.compressWords_congr
  intro i hi
  rcases Nat.lt_or_ge i 14 with hlt | hge
  · have hne14 : index i ≠ index (BLOCK_INTS - 2) := by
      rw [Ne, Fin.ext_iff]
      simp only [index, Fin.ofNat, BLOCK_INTS]
      omega
    have hne15 : index i ≠ index (BLOCK_INTS - 1) := by
      rw [Ne, Fin.ext_iff]
      simp only [index, Fin.ofNat, BLOCK_INTS]
      omega
    rw [wordsOf, get_put_of_ne _ _ hne14, get_put_of_ne _ _ hne15,
      SecureHash.words_append_left _ (show 4 * i + 4 ≤ front.length by omega)]
    exact hagree i hlt
  · interval_cases i
    · rw [h14, hhigh]
      exact get_put_self _ _ _
    · rw [h15, hlow]
      exact (get_put_of_ne _ _ (by decide)).trans (get_put_self _ _ _)

/-- the buffer with the one bit and zeros up to a whole block -/
def filled (buffer : Bytes) : Bytes :=
  buffer ++ ([0x80] : Bytes) ++ List.replicate (BLOCK_BYTES - (buffer ++ ([0x80] : Bytes)).length) 0

/-- where the length fits behind the one bit, the padding is the filled buffer with the length over its end -/
theorem padding_short {buffer : Bytes} (h : buffer.length < 56) (bits : ℕ) :
    buffer ++ 0x80 :: (List.replicate (zeros buffer.length) 0 ++ octets 8 bits) =
      (filled buffer).take 56 ++ octets 8 bits := by
  have hzeros : zeros buffer.length = 55 - buffer.length := by
    rw [zeros]
    omega
  have hone : (buffer ++ ([0x80] : Bytes)).length = buffer.length + 1 := List.length_append
  have hfit : 56 - (buffer.length + 1) = 55 - buffer.length := by omega
  have hfit' : min (55 - buffer.length) (BLOCK_BYTES - (buffer.length + 1)) = 55 - buffer.length := by
    rw [BLOCK_BYTES, BLOCK_INTS]
    omega
  have htake : (filled buffer).take 56 = buffer ++ ([0x80] : Bytes) ++ List.replicate (55 - buffer.length) 0 := by
    rw [filled, List.take_append, List.take_of_length_le (by omega), hone, List.take_replicate, hfit, hfit']
  rw [htake, hzeros, List.append_assoc, List.append_assoc]
  rfl

/-- where it does not, the filled buffer is a block of its own and the length ends a block of zeros -/
theorem padding_long {buffer : Bytes} (short : buffer.length < 64) (h : 56 ≤ buffer.length) (bits : ℕ) :
    buffer ++ 0x80 :: (List.replicate (zeros buffer.length) 0 ++ octets 8 bits) =
      filled buffer ++ (List.replicate 56 0 ++ octets 8 bits) := by
  have hzeros : zeros buffer.length = (64 - (buffer.length + 1)) + 56 := by
    rw [zeros]
    omega
  have hone : (buffer ++ ([0x80] : Bytes)).length = buffer.length + 1 := List.length_append
  have h64 : BLOCK_BYTES = 64 := rfl
  rw [filled, hone, h64, hzeros, List.replicate_add, List.append_assoc, List.append_assoc, List.append_assoc]
  rfl

/-! ## `final` -/

theorem iterate_succ (k : ℕ) : (fun n : UInt64 => n + 1)^[k] 0 = UInt64.ofNat k := by
  induction k with
  | zero => rfl
  | succ k ih => rw [Function.iterate_succ_apply', ih, UInt64.ofNat_add]; rfl

/-- a word prints as its four bytes do -/
theorem hexWord_eq (w : UInt32) : hexWord w = toHexString (octets 4 w.toNat) := by
  have hhigh : ∀ k, w.toNat / k % 2 ^ 8 / 16 = w.toNat / (k * 16) % 16 := by
    intro k
    rw [← Nat.div_div_eq_div_mul]
    omega
  have hlow : ∀ k, w.toNat / k % 2 ^ 8 % 16 = w.toNat / k % 16 := by
    intro k
    omega
  have hhigh1 := hhigh 1
  have hlow1 := hlow 1
  rw [Nat.div_one] at hhigh1 hlow1
  simp only [toHexString, octets, List.nil_append, List.cons_append, List.flatMap_cons, List.flatMap_nil,
    UInt8.toNat_ofNat', Nat.div_div_eq_div_mul, hhigh, hlow, hhigh1, hlow1, List.append_nil]
  simp [hexWord, List.range_succ]

theorem flatMap_hexWord (digest : Digest) :
    digest.toList.flatMap hexWord = toHexString (SecureHash.digest (wordsOfDigest digest)) := by
  have hlist : digest.toList = [digest[0], digest[1], digest[2], digest[3], digest[4]] := by
    apply List.ext_getElem
    · simp
    · intro i _ hi
      simp only [List.length_cons, List.length_nil] at hi
      interval_cases i <;> simp
  rw [hlist, SecureHash.digest, toHexString, List.flatMap_append, List.flatMap_append, List.flatMap_append,
    List.flatMap_append]
  simp only [List.flatMap_cons, List.flatMap_nil, List.append_nil, List.append_assoc, hexWord_eq]
  rfl

section Padded

variable {s : Sha1} {bits : ℕ}
  (hbits : (s.transforms * UInt64.ofNat BLOCK_BYTES + UInt64.ofNat s.buffer.length) * 8 = UInt64.ofNat bits)

/-- `final` with the length given, and the padded buffer hashed from the digest -/
def FinalIs (s : Sha1) (bits : ℕ) : Prop :=
  s.final = (toHexString (SecureHash.digest (chain 64 compress (wordsOfDigest s.digest)
    (s.buffer ++ 0x80 :: (List.replicate (zeros s.buffer.length) 0 ++ octets 8 bits)))), new)

include hbits

/-- the length fits behind the one bit: one block -/
theorem final_short (h : s.buffer.length < 56) : FinalIs s bits := by
  have hfull : (filled s.buffer).length = BLOCK_BYTES := padded_full s.short
  have hfront : ((filled s.buffer).take 56).length = 56 := List.length_take_of_le (by rw [hfull]; decide)
  have hone : (s.buffer ++ ([0x80] : Bytes)).length = s.buffer.length + 1 := List.length_append
  have hroom : ¬(s.buffer ++ ([0x80] : Bytes)).length > BLOCK_BYTES - 8 := by
    rw [hone, BLOCK_BYTES, BLOCK_INTS]
    omega
  have hwords : ∀ i < 14, wordsOf (bufferToBlock (filled s.buffer) hfull) i = words ((filled s.buffer).take 56) i := by
    intro i hi
    have hleft := SecureHash.words_append_left ((filled s.buffer).drop 56)
      (show 4 * i + 4 ≤ ((filled s.buffer).take 56).length by rw [hfront]; omega)
    rw [List.take_append_drop] at hleft
    rw [← hleft]
    exact wordsOf_bufferToBlock hfull (by omega)
  have hblock : ((filled s.buffer).take 56 ++ octets 8 bits).length = 64 := by
    rw [List.length_append, hfront, SecureHash.length_octets]
  rw [FinalIs, padding_short h, chain_block (by decide) hblock, ← transform_last s.digest hfront hwords bits,
    ← flatMap_hexWord, Sha1.final]
  simp only [hroom, if_false, hbits]
  rfl

/-- it does not: the buffer is hashed, and a block of zeros with the length after it -/
theorem final_long (h : 56 ≤ s.buffer.length) : FinalIs s bits := by
  have hfull : (filled s.buffer).length = BLOCK_BYTES := padded_full s.short
  have hone : (s.buffer ++ ([0x80] : Bytes)).length = s.buffer.length + 1 := List.length_append
  have hroom : (s.buffer ++ ([0x80] : Bytes)).length > BLOCK_BYTES - 8 := by
    rw [hone, BLOCK_BYTES, BLOCK_INTS]
    omega
  have hzero : ∀ i < 14, words (List.replicate 56 0) i = 0 := by
    intro i hi
    interval_cases i <;> rfl
  have hwords : ∀ i < 14, wordsOf ((List.range (BLOCK_INTS - 2)).foldl (fun block i => block.put (index i) 0)
      (transform s.digest (bufferToBlock (filled s.buffer) hfull)).2) i = words (List.replicate 56 0) i := by
    intro i hi
    rw [hzero i hi]
    exact get_zeroed _ (le_refl 14) hi
  have hlast := transform_last (transform s.digest (bufferToBlock (filled s.buffer) hfull)).1
    (List.length_replicate (n := 56) (a := (0 : UInt8))) hwords bits
  rw [transform_bufferToBlock] at hlast
  have hblock : (List.replicate 56 0 ++ octets 8 bits).length = 64 := by
    rw [List.length_append, List.length_replicate, SecureHash.length_octets]
  have hfirst : (filled s.buffer).length = 64 := hfull
  rw [FinalIs, padding_long s.short h, chain_append (by decide) _ (by rw [hfirst]), chain_block (by decide) hfirst,
    chain_block (by decide) hblock, ← hlast, ← flatMap_hexWord, Sha1.final]
  simp only [hroom, if_true, hbits]
  rfl

theorem final_eq : FinalIs s bits := by
  rcases Nat.lt_or_ge s.buffer.length 56 with h | h
  · exact final_short hbits h
  · exact final_long hbits h

end Padded

/-! ## Messages -/

/-- an object that was fed a message -/
structure Holds (s : Sha1) (message : Bytes) : Prop where
  view : view s = absorb 64 compressCounted (SecureHash.initial, 0) message

theorem new_holds : Holds new [] := ⟨(absorb_nil (by decide)).symm⟩

theorem Holds.update {s : Sha1} {message : Bytes} (h : Holds s message) (input : Bytes) :
    Holds (s.update input) (message ++ input) := by
  refine ⟨?_⟩
  rw [view_update, feed, h.view, ← absorb_append (by decide)]

section Final

variable {s : Sha1} {message : Bytes} (h : Holds s message)

include h

/-- the parts of a message that is held: whole blocks, which are hashed and counted, and the buffer -/
theorem Holds.split : ∃ whole, message = whole ++ s.buffer ∧ whole.length % 64 = 0 ∧
    wordsOfDigest s.digest = chain 64 compress SecureHash.initial whole ∧
    s.transforms = UInt64.ofNat (message.length / 64) ∧ s.buffer.length = message.length % 64 := by
  have hview := h.view
  rw [compressCounted, absorb_counted (· + 1) (by decide) SecureHash.initial 0 message, iterate_succ] at hview
  obtain ⟨hstate, hbuffer⟩ := Prod.mk.inj hview
  obtain ⟨hdigest, htransforms⟩ := Prod.mk.inj hstate
  obtain ⟨whole, hsplit, hmod, hchain⟩ := absorb_split (n := 64) (f := compress) (by decide) SecureHash.initial message
  refine ⟨whole, ?_, hmod, ?_, htransforms, ?_⟩
  · rw [hbuffer]
    exact hsplit
  · rw [hchain]
    exact hdigest
  · rw [hbuffer]
    exact residue_length (by decide) _ _

/-- **The end of a message.** `final` prints the standard's digest of all that was fed, and resets the object. -/
theorem Holds.final : s.final = (toHexString (SecureHash.sha1 message), new) := by
  obtain ⟨whole, hmessage, hmod, hdigest, htransforms, hlength⟩ := h.split
  have hzeros : zeros message.length = zeros s.buffer.length := by
    rw [hmessage, List.length_append, SecureHash.zeros_add hmod]
  have hbits : (s.transforms * UInt64.ofNat BLOCK_BYTES + UInt64.ofNat s.buffer.length) * 8 =
      UInt64.ofNat (8 * message.length) := by rw [htransforms, hlength, total_bits_eq]
  have hfinal := final_eq hbits
  rw [FinalIs] at hfinal
  rw [hfinal, hdigest, ← chain_append (by decide) _ hmod, ← List.append_assoc, ← hmessage, SecureHash.sha1,
    SecureHash.pad, padding, hzeros]

end Final

end SimpleTorrent.Sha1
