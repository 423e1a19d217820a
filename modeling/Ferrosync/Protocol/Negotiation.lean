import Ferrosync.Types
import Ferrosync.Lib.Text

set_option autoImplicit false

/-! # Negotiating an algorithm

Both sides send the names they know, and the first name of the sender's list that the receiver
knows is taken (`negotiate_algorithm`).
-/

namespace Ferrosync

def ChecksumType.fromName (name : Text) : Option ChecksumType :=
  if name = "none".toList then some .none
  else if name = "md4".toList then some .md4
  else if name = "md5".toList then some .md5
  else if name = "blake3".toList then some .blake3
  else if name = "xxh3".toList then some .xxh3
  else if name = "xxh128".toList then some .xxh128
  else none

def checksumList : Text := "blake3 xxh128 xxh3 md5 md4 none".toList

def negotiateAlgorithm {α : Type} (senderList receiverList : Text) (parse : Text → Option α) :
    Except Failure α :=
  let known := (Text.splitWhitespace senderList).filter fun name =>
    (Text.splitWhitespace receiverList).any fun r => decide (r = name)
  match known.findSome? parse with
  | some algo => .ok algo
  | none => .error (.protocol (.handshake ("no common algorithm: sender=[" ++
      String.ofList senderList ++ "], receiver=[" ++ String.ofList receiverList ++ "]")))

/-- The name under which a checksum is negotiated. -/
def ChecksumType.wireName : ChecksumType → Text
  | .none => "none".toList
  | .md4 => "md4".toList
  | .md5 => "md5".toList
  | .blake3 => "blake3".toList
  | .xxh3 => "xxh3".toList
  | .xxh128 => "xxh128".toList

/-- Every checksum is negotiated with a peer that knows no other. -/
theorem negotiateAlgorithm_wireName (t : ChecksumType) :
    negotiateAlgorithm checksumList t.wireName ChecksumType.fromName = .ok t := by
  cases t <;> decide +kernel

end Ferrosync
