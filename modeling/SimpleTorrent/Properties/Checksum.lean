/-
The repository's SHA-1 class computes SHA-1.

- `digests_eq`: an object that is fed messages one after another, each in any pieces, prints the standard's digest of
  each message; `final` leaves no trace of one message in the next.
- `checksum_eq`: so the class is an instance of the hash that the rest of the development takes as a parameter, and
  everything proved there holds with it.
-/
import SimpleTorrent.Hash.Streaming

namespace SimpleTorrent

open Checked

namespace Sha1

/-- the messages that are ended among some calls; the first one has begun with `pending` -/
def messages (pending : Bytes) : List Op → List Bytes
  | [] => []
  | .update piece :: ops => messages (pending ++ piece) ops
  | .final :: ops => pending :: messages [] ops

theorem Holds.digests {s : Sha1} {pending : Bytes} (h : Holds s pending) (ops : List Op) :
    s.digests ops = (messages pending ops).map fun message => toHexString (SecureHash.sha1 message) := by
  induction ops generalizing s pending with
  | nil => rfl
  | cons o ops ih =>
    cases o with
    | update piece => exact ih (h.update piece)
    | final =>
      rw [Sha1.digests, messages, List.map_cons, h.final]
      exact congrArg _ (ih new_holds)

/-- **The class computes SHA-1**, of every message, in whatever pieces it comes, and whatever came before it. -/
theorem digests_eq (ops : List Op) :
    new.digests ops = (messages [] ops).map fun message => toHexString (SecureHash.sha1 message) :=
  new_holds.digests ops

/-- the block of "abc" -/
example : (transform initialDigest #v[0x61626380, 0, 0, 0, 0, 0, 0, 0, 0, 0, 0, 0, 0, 0, 0, 24]).1 =
    #v[0xa9993e36, 0x4706816a, 0xba3e2571, 0x7850c26c, 0x9cd0d89d] := by decide +kernel

/-- `SHA1 checksum; checksum.update(data); checksum.final()`, as the parser and the piece manager have it -/
theorem checksum_eq (data : Bytes) : (new.update data).final.1 = checksumFinal SecureHash.sha1 data := by
  rw [(new_holds.update data).final]
  rfl

end Sha1

end SimpleTorrent
