/-
The handshake: what is accepted is what `create_handshake` writes.

The parser takes the length of the protocol name from the wire, but goes on only if the name is the protocol identifier,
and then the length is 19 and the other fields are where `create_handshake` puts them.

- `parse_handshake`: the parser on a handshake that was written.
- `parse_other`: a response that is no handshake is refused.
- `handshake_iff`: both, for every response of 68 bytes; no read leaves the response.
-/
import SimpleTorrent.Model.MessageUtil

namespace SimpleTorrent.MessageUtil

open Checked

theorem toHexString_injective : Function.Injective toHexString := by
  intro a b h
  have hdecode := hexDecode_toHexString a
  rw [h, hexDecode_toHexString] at hdecode
  exact (Except.ok.inj hdecode).symm

/-- a copy of one part of a byte string -/
theorem copyFrom_append (pre bytes rest : Bytes) {off n : ℕ} (hoff : off = pre.length) (hn : n = bytes.length) :
    copyFrom (pre ++ (bytes ++ rest)) off n = .ok bytes := by
  subst hoff hn
  rw [copyFrom, if_pos (by simp), List.drop_left, List.take_left]

theorem copyFrom_eq_ok {bytes copied : Bytes} {off n : ℕ} :
    copyFrom bytes off n = .ok copied ↔ off + n ≤ bytes.length ∧ copied = (bytes.drop off).take n := by
  rw [copyFrom]
  split_ifs with h
  · simp [h, eq_comm]
  · simp [h]

variable {reservedBytes binaryInfoHash id infoHash r s : Bytes}

theorem createHandshake_eq (reservedBytes binaryInfoHash id : Bytes) : createHandshake reservedBytes binaryInfoHash id =
    [19] ++ (protocolIdentifier ++ (reservedBytes ++ (binaryInfoHash ++ id))) := by
  rw [createHandshake, show UInt8.ofNat protocolIdentifier.length = 19 from rfl]
  simp

variable (infoHash) in
/-- what was written is read back, if it is for the same torrent -/
theorem parse_handshake (hres : reservedBytes.length = 8) (hhash : binaryInfoHash.length = 20) (hid : id.length = 20) :
    parseHandshakeResponse (createHandshake reservedBytes binaryInfoHash id) infoHash =
      .ok (if toHexString binaryInfoHash = infoHash then some (toHexString id) else none) := by
  have hname : protocolIdentifier.length = 19 := rfl
  set r := createHandshake reservedBytes binaryInfoHash id with hr
  have hfirst : vecIdx r 0 = .ok 19 := rfl
  rw [createHandshake_eq] at hr
  have hlen : ¬ r.length < 1 + (19 : UInt8).toNat := by
    rw [hr]
    simp only [List.length_append, List.length_singleton, hname, UInt8.reduceToNat]
    omega
  have hcopy₁ : copyFrom r 1 (19 : UInt8).toNat = .ok protocolIdentifier := by
    rw [hr]
    exact copyFrom_append [19] _ _ rfl rfl
  have hcopy₂ : copyFrom r (1 + (19 : UInt8).toNat) 8 = .ok reservedBytes := by
    rw [hr, ← List.append_assoc]
    exact copyFrom_append _ _ _ rfl hres.symm
  have hcopy₃ : copyFrom r (1 + (19 : UInt8).toNat + 8) 20 = .ok binaryInfoHash := by
    have hpre : 1 + (19 : UInt8).toNat + 8 = ([19] ++ protocolIdentifier ++ reservedBytes).length := by
      simp [hname, hres]
    rw [hr, ← List.append_assoc, ← List.append_assoc]
    exact copyFrom_append _ _ _ hpre hhash.symm
  have hcopy₄ : copyFrom r (1 + (19 : UInt8).toNat + 8 + 20) 20 = .ok id := by
    have hpre : 1 + (19 : UInt8).toNat + 8 + 20 =
        ([19] ++ protocolIdentifier ++ reservedBytes ++ binaryInfoHash).length := by
      simp [hname, hres, hhash]
    have hcopy := copyFrom_append _ id [] hpre hid.symm
    rwa [List.append_nil, List.append_assoc, List.append_assoc, List.append_assoc, ← hr] at hcopy
  rw [parseHandshakeResponse, hfirst]
  simp only [ok_bind, if_neg hlen, hcopy₁, ne_eq, not_true_eq_false, if_false, hcopy₂, hcopy₃, hcopy₄]
  by_cases hsame : toHexString binaryInfoHash = infoHash
  · simp [hsame]
  · simp [hsame]

/-- a response that is not a handshake is refused -/
theorem parse_other (hr : r.length = 68) (h : ∀ reservedBytes binaryInfoHash id, reservedBytes.length = 8 →
    binaryInfoHash.length = 20 → id.length = 20 → r ≠ createHandshake reservedBytes binaryInfoHash id) :
    parseHandshakeResponse r infoHash = .ok none := by
  obtain ⟨n, rest, rfl⟩ : ∃ n rest, r = n :: rest := List.exists_cons_of_length_pos (by omega)
  rw [List.length_cons] at hr
  rw [parseHandshakeResponse]
  simp only [vecIdx, List.getElem?_cons_zero, ok_bind]
  by_cases hlong : (n :: rest).length < 1 + n.toNat
  · rw [if_pos hlong]
    rfl
  · rw [if_neg hlong]
    have hcopy : copyFrom (n :: rest) 1 n.toNat = .ok (rest.take n.toNat) :=
      copyFrom_eq_ok.2 ⟨Nat.not_lt.1 hlong, rfl⟩
    have hname : rest.take n.toNat ≠ protocolIdentifier := by
      intro hname
      -- then the name has 19 bytes, and the response is a handshake
      have hn : n.toNat = 19 := by
        have hlen := congrArg List.length hname
        rw [List.length_cons] at hlong
        rw [List.length_take_of_le (by omega)] at hlen
        exact hlen
      refine h ((rest.drop 19).take 8) ((rest.drop 27).take 20) (rest.drop 47) ?_ ?_ ?_ ?_
      · rw [List.length_take, List.length_drop]
        omega
      · rw [List.length_take, List.length_drop]
        omega
      · rw [List.length_drop]
        omega
      · rw [createHandshake_eq, ← hname, hn, show n = 19 from UInt8.toNat_inj.1 hn]
        have hdrop : ∀ i j, (rest.drop i).take j ++ rest.drop (i + j) = rest.drop i := by
          intro i j
          rw [← List.drop_drop, List.take_append_drop]
        rw [hdrop 27 20, hdrop 19 8, List.take_append_drop]
        rfl
    rw [hcopy]
    simp only [ok_bind, ne_eq, hname, not_false_eq_true, if_true, pure_eq_ok]

/-- **The handshake parser accepts exactly what the encoder writes** for the same torrent, and never reads outside the
response. -/
theorem handshake_iff (infoHash r : Bytes) (hinfo : infoHash.length = 20) (hr : r.length = 68) :
    ∃ result, parseHandshakeResponse r (toHexString infoHash) = .ok result ∧
      ∃ binaryInfoHash, hexDecode (toHexString infoHash) = .ok binaryInfoHash ∧
        ∀ s, result = some s ↔ ∃ reservedBytes id : Bytes, reservedBytes.length = 8 ∧ id.length = 20 ∧
          r = createHandshake reservedBytes binaryInfoHash id ∧ s = toHexString id := by
  by_cases h : ∃ reservedBytes binaryInfoHash id : Bytes, reservedBytes.length = 8 ∧ binaryInfoHash.length = 20 ∧
      id.length = 20 ∧ r = createHandshake reservedBytes binaryInfoHash id
  · obtain ⟨reservedBytes, binaryInfoHash, id, hres, hhash, hid, rfl⟩ := h
    refine ⟨_, parse_handshake _ hres hhash hid, infoHash, hexDecode_toHexString infoHash, fun s => ?_⟩
    constructor
    · intro hs
      split_ifs at hs with hsame
      rw [toHexString_injective hsame]
      exact ⟨reservedBytes, id, hres, hid, rfl, (Option.some.inj hs).symm⟩
    · intro hs
      obtain ⟨reservedBytes', id', hres', hid', hr', rfl⟩ := hs
      have hparse := parse_handshake (toHexString infoHash) hres' hinfo hid'
      rw [← hr', parse_handshake _ hres hhash hid, if_pos rfl] at hparse
      exact Except.ok.inj hparse
  · refine ⟨none, parse_other hr ?_, infoHash, hexDecode_toHexString infoHash, fun s => ?_⟩
    · intro reservedBytes binaryInfoHash id hres hhash hid hr
      exact h ⟨reservedBytes, binaryInfoHash, id, hres, hhash, hid, hr⟩
    · simp only [reduceCtorEq, false_iff]
      rintro ⟨reservedBytes, id, hres, hid, hr, -⟩
      exact h ⟨reservedBytes, infoHash, id, hres, hinfo, hid, hr⟩

theorem handshake_iff_zeros : ∃ result,
    parseHandshakeResponse (createHandshake (List.replicate 8 0) (List.replicate 20 1) (List.replicate 20 2))
      (toHexString (List.replicate 20 1)) = .ok result ∧
      ∃ binaryInfoHash, hexDecode (toHexString (List.replicate 20 1)) = .ok binaryInfoHash ∧
        ∀ s, result = some s ↔ ∃ reservedBytes id : Bytes, reservedBytes.length = 8 ∧ id.length = 20 ∧
          createHandshake (List.replicate 8 0) (List.replicate 20 1) (List.replicate 20 2) =
            createHandshake reservedBytes binaryInfoHash id ∧ s = toHexString id :=
  handshake_iff (List.replicate 20 1) (createHandshake (List.replicate 8 0) (List.replicate 20 1) (List.replicate 20 2))
    rfl rfl

end SimpleTorrent.MessageUtil
