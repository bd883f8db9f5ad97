/-
Which text the info hash is a hash of.

The file is decoded, and what was decoded of the key "info" is encoded again. The decoder accepts spellings that the
encoder does not write.

- `InfoText`: the spelling of the value behind the key "info" in a file; there is one at most (`InfoText.unique`).
- `info_hash_iff`: for every accepted file the encoder writes that text again exactly if its spelling is canonical.
- `leading_zero_hash`: a file that is accepted, and with another text hashed than the one it has.
-/
import SimpleTorrent.Bencode.Reading
import SimpleTorrent.Parser.Entries

namespace SimpleTorrent

open Checked Bencode SimpleTorrent.Parser

namespace Bencode

/-! ## Fields of a dictionary -/

/-- a field, wherever it stands -/
def Fields.Has : Fields → Chars → Spelling → Prop
  | .nil, _, _ => False
  | .cons key value tail, k, v => k = key ∧ v = value ∨ tail.Has k v

variable {key key' : Chars} {value value' : Spelling} {k : Bytes} {v : Bencode}

theorem Fields.Has.mem_keys {fields : Fields} (h : fields.Has key value) : key.bytes ∈ fields.keys := by
  match fields with
  | .nil => exact h.elim
  | .cons _ _ tail =>
    rw [Fields.keys, List.mem_cons]
    rcases h with ⟨rfl, -⟩ | h
    · exact Or.inl rfl
    · exact Or.inr (Fields.Has.mem_keys h)

/-- different fields have different keys -/
theorem Fields.Has.unique {fields : Fields} (hnodup : fields.keys.Nodup) (h : fields.Has key value)
    (h' : fields.Has key' value') (hk : key.bytes = key'.bytes) : value = value' := by
  match fields with
  | .nil => exact h.elim
  | .cons _ _ tail =>
    rw [Fields.keys, List.nodup_cons] at hnodup
    rcases h with ⟨rfl, rfl⟩ | h
    · rcases h' with ⟨rfl, rfl⟩ | h'
      · rfl
      · exact absurd (hk ▸ h'.mem_keys) hnodup.1
    · rcases h' with ⟨rfl, rfl⟩ | h'
      · exact absurd (hk ▸ h.mem_keys) hnodup.1
      · exact Fields.Has.unique hnodup.2 h h' hk

/-- the text of a field is a part of the text of the dictionary -/
theorem Fields.Has.text {fields : Fields} (h : fields.Has key value) :
    ∃ before after, fields.text = before ++ (key.text ++ (value.text ++ after)) := by
  match fields with
  | .nil => exact h.elim
  | .cons first second tail =>
    rcases h with ⟨rfl, rfl⟩ | h
    · exact ⟨[], tail.text, rfl⟩
    · obtain ⟨before, after, htext⟩ := Fields.Has.text h
      refine ⟨first.text ++ (second.text ++ before), after, ?_⟩
      rw [Fields.text, htext, List.append_assoc, List.append_assoc]

theorem Fields.Has.accepted {fields : Fields} (h : fields.Has key value) (hacc : fields.Accepted) : value.Accepted := by
  match fields with
  | .nil => exact h.elim
  | .cons _ _ tail =>
    rcases h with ⟨-, rfl⟩ | h
    · exact hacc.2.1
    · exact Fields.Has.accepted h hacc.2.2

/-- an entry was there before, or is that of a field -/
theorem Fields.has_of_lookup (fields : Fields) {d : List (Bytes × Bencode)} (hnodup : fields.keys.Nodup)
    (hnew : ∀ k ∈ fields.keys, k ∉ Bencode.keys d) (h : (fields.entries d).lookup k = some v) :
    d.lookup k = some v ∨ ∃ key value, fields.Has key value ∧ key.bytes = k ∧ value.value = v := by
  match fields with
  | .nil => exact Or.inl h
  | .cons key value tail =>
    rw [Fields.keys, List.nodup_cons] at hnodup
    rw [Fields.keys, List.forall_mem_cons] at hnew
    have hdisjoint : ∀ k ∈ tail.keys, k ∉ Bencode.keys (emplace key.bytes value.value d) := by
      intro k hk hmem
      rcases mem_keys_emplace.1 hmem with rfl | hmem
      · exact hnodup.1 hk
      · exact hnew.2 k hk hmem
    rcases Fields.has_of_lookup tail hnodup.2 hdisjoint h with h | ⟨key', value', hhas, hk, hv⟩
    · rw [lookup_emplace hnew.1] at h
      split_ifs at h with hk
      · exact Or.inr ⟨key, value, Or.inl ⟨rfl, rfl⟩, hk.symm, Option.some.inj h⟩
      · exact Or.inl h
    · exact Or.inr ⟨key', value', Or.inr hhas, hk, hv⟩

end Bencode

/-! ## The value of "info" -/

/-- the file is a dictionary, whatever follows it, and has this spelling behind its key "info" -/
def InfoText (file : Bytes) (info : Spelling) : Prop :=
  ∃ fields rest key, file = (Spelling.dict fields).text ++ rest ∧ fields.keys.Nodup ∧ key.bytes = infoKey ∧
    fields.Has key info

variable {file : Bytes} {info info' : Spelling}

theorem InfoText.unique (h : InfoText file info) (h' : InfoText file info') : info = info' := by
  obtain ⟨fields, rest, key, hfile, hnodup, hkey, hhas⟩ := h
  obtain ⟨fields', rest', key', hfile', -, hkey', hhas'⟩ := h'
  rw [hfile] at hfile'
  obtain ⟨hfields, -⟩ := Spelling.text_inj _ hfile'
  cases hfields
  exact hhas.unique hnodup hhas' (hkey.trans hkey'.symm)

/-- it is a part of the file -/
theorem InfoText.text (h : InfoText file info) : ∃ before after, file = before ++ (info.text ++ after) := by
  obtain ⟨fields, rest, key, rfl, -, -, hhas⟩ := h
  obtain ⟨before, after, htext⟩ := hhas.text
  refine ⟨dictToken :: (before ++ key.text), after ++ (endToken :: rest), ?_⟩
  rw [Spelling.text, htext]
  simp

/-- what is decoded of an accepted spelling of a dictionary -/
theorem infoText_of_decode {d : List (Bytes × Bencode)} {v : Bencode} (h : decode file = .ok (.dict d))
    (hv : d.lookup infoKey = some v) : ∃ info : Spelling, InfoText file info ∧ info.Accepted ∧ v = info.value := by
  obtain ⟨t, rest, hacc, rfl, hvalue⟩ := decode_sound h
  cases t with
  | integer | string | list => cases hvalue
  | dict fields =>
    cases hvalue
    rcases fields.has_of_lookup hacc.1 (by simp) hv with hnil | ⟨key, info, hhas, hkey, rfl⟩
    · cases hnil
    · exact ⟨info, ⟨fields, rest, key, rfl, hacc.1, hkey, hhas⟩, hhas.accepted hacc.2, rfl⟩

namespace Parser

/-- the string that is hashed, for a file -/
def hashedString (file : Bytes) : Except ParseError Bytes := do
  let torrentData ← (decode file).mapError .decode
  let torrentDataDict ← torrentData.getDict.mapError .access
  (infoString torrentDataDict).mapError .access

/-- **Which text is hashed.** For an accepted file it is the text of the value of "info" exactly if that is spelled
canonically: no needless zeros, no sign before zero, keys in order. -/
theorem info_hash_iff (sha1 : Bytes → Bytes) (file : Bytes) (data : TorrentMetadata)
    (h : parseTorrentFile sha1 (some file) = .ok data) :
    ∃ hashed, hashedString file = .ok hashed ∧ data.infoHash = checksumFinal sha1 hashed ∧
      (∃ info, InfoText file info) ∧ ∀ info, InfoText file info → (hashed = info.text ↔ info.Canonical) := by
  obtain ⟨torrentData, hdecode, h⟩ := bind_eq_ok.1 h
  rw [mapError_eq_ok] at hdecode
  obtain ⟨d, v, rfl, hv, hhash⟩ := readTorrent_infoHash h
  obtain ⟨info, htext, hacc, rfl⟩ := infoText_of_decode hdecode hv
  refine ⟨encode info.value, ?_, hhash, ⟨info, htext⟩, fun other hother => ?_⟩
  · rw [hashedString, hdecode]
    simp [Except.mapError, getDict, infoString, dictAt, hv]
  · rw [hother.unique htext]
    exact encode_eq_text_iff hacc

/-- "01" -/
def zeroOne : Numeral where
  text := [48, 49]
  isDigit := by simp [Decimal.isDigit]

/-- an info dictionary; its one file has a length of one byte, spelled "01" -/
def leadingZeroInfo : Spelling :=
  .dict (.cons (.ofBytes lengthKey) (.integer false zeroOne)
    (.cons (.ofBytes nameKey) (.string (.ofBytes [97]))
    (.cons (.ofBytes pieceLengthKey) (.integer false (.ofNat 1))
    (.cons (.ofBytes piecesKey) (.string (.ofBytes (List.replicate 20 0))) .nil))))

def leadingZeroTorrent : Spelling :=
  .dict (.cons (.ofBytes announceKey) (.string (.ofBytes [])) (.cons (.ofBytes infoKey) leadingZeroInfo .nil))

theorem leadingZeroInfo_accepted : leadingZeroInfo.Accepted := by
  refine ⟨by decide, ?_, ?_, ?_, ?_, ?_, ?_, ?_, ?_, trivial⟩ <;> refine ⟨?_, ?_⟩ <;> decide

theorem leadingZero_accepted : leadingZeroTorrent.Accepted := by
  refine ⟨by decide, ?_, ?_, ?_, leadingZeroInfo_accepted, trivial⟩ <;> refine ⟨?_, ?_⟩ <;> decide

theorem decode_leadingZero : decode leadingZeroTorrent.text = .ok leadingZeroTorrent.value := by
  rw [← List.append_nil leadingZeroTorrent.text]
  exact decode_complete leadingZero_accepted []

theorem parse_leadingZero : ∃ data, parseTorrentFile id (some leadingZeroTorrent.text) = .ok data := by
  rw [parseTorrentFile, decode_leadingZero]
  exact ⟨_, rfl⟩

theorem info_hash_iff_leadingZero : ∃ data, parseTorrentFile id (some leadingZeroTorrent.text) = .ok data ∧
    ∃ hashed, hashedString leadingZeroTorrent.text = .ok hashed ∧ data.infoHash = checksumFinal id hashed ∧
      (∃ info, InfoText leadingZeroTorrent.text info) ∧
      ∀ info, InfoText leadingZeroTorrent.text info → (hashed = info.text ↔ info.Canonical) := by
  obtain ⟨data, hdata⟩ := parse_leadingZero
  exact ⟨data, hdata, info_hash_iff id _ data hdata⟩

/-- **Another text is hashed.** The file has "i01e", and the text that is hashed has "i1e". -/
theorem leading_zero_hash : (∃ data, parseTorrentFile id (some leadingZeroTorrent.text) = .ok data) ∧
    InfoText leadingZeroTorrent.text leadingZeroInfo ∧
    ∃ hashed, hashedString leadingZeroTorrent.text = .ok hashed ∧ hashed ≠ leadingZeroInfo.text := by
  refine ⟨parse_leadingZero, ⟨_, [], .ofBytes infoKey, (List.append_nil _).symm, ?_, rfl, ?_⟩, ?_⟩
  · decide
  · exact Or.inr (Or.inl ⟨rfl, rfl⟩)
  · rw [hashedString, decode_leadingZero]
    refine ⟨_, rfl, fun h => ?_⟩
    obtain ⟨-, -, ⟨⟨-, hzero⟩, -⟩, -⟩ := (encode_eq_text_iff leadingZeroInfo_accepted).1 h
    exact absurd (hzero rfl) (by decide)

end Parser

end SimpleTorrent
