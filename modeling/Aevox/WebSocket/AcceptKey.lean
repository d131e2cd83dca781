import Aevox.Net.Base64
import Aevox.Net.Sha1

/-!
# The accept key of a handshake

`compute_accept_key` answers the key of the client with the digest of the key and a constant behind
it, in base 64. The answer stands in a header field of the response, so it matters that it has
neither a carriage return nor a newline: it is 27 characters of the alphabet and a `'='`.
-/

namespace Aevox

def kWebSocketGUID : Bytes := ascii "258EAFA5-E914-47DA-95CA-C5AB0DC85B11"

/-- `compute_accept_key` -/
def computeAcceptKey (clientKey : Bytes) : Bytes :=
  let combined := clientKey ++ kWebSocketGUID
  Base64.base64Encode (Sha1.sha1Compute combined)

variable {clientKey : Bytes}

/-- **The key stands for the digest** of what the client sent and the constant. -/
theorem digest_computeAcceptKey (h : (clientKey ++ kWebSocketGUID).length < 2 ^ 61) :
    SecureHash.digest (clientKey ++ kWebSocketGUID) =
      Radix64.decode (computeAcceptKey clientKey) := by
  rw [computeAcceptKey, Base64.base64Encode_eq, Radix64.decode_encode, Sha1.sha1Compute_eq h,
    SecureHash.digest, if_pos (by omega)]

theorem computeAcceptKey_eq_append (clientKey : Bytes) : ∃ chars,
    computeAcceptKey clientKey = chars ++ [Radix64.padding] ∧ chars.length = 27 ∧
      ∀ ch ∈ chars, ch ∈ Base64.kBase64Alphabet := by
  have hlen : (Sha1.sha1Compute (clientKey ++ kWebSocketGUID)).length = 20 :=
    Sha1.length_sha1Compute _
  obtain ⟨chars, hchars, hall⟩ :=
    Radix64.encode_eq_append_padding (Sha1.sha1Compute (clientKey ++ kWebSocketGUID))
  rw [hlen] at hchars
  have htotal := Radix64.length_encode (Sha1.sha1Compute (clientKey ++ kWebSocketGUID))
  rw [hlen, hchars, List.length_append, List.length_replicate] at htotal
  refine ⟨chars, by rw [computeAcceptKey, Base64.base64Encode_eq]; exact hchars, by omega,
    fun ch hch ↦ ?_⟩
  obtain ⟨n, hn, rfl⟩ := hall ch hch
  exact Base64.mem_alphabet hn

/-- The example of the protocol. -/
example : computeAcceptKey (ascii "dGhlIHNhbXBsZSBub25jZQ==") =
    ascii "s3pPLMBiTxaQ9kYGzzhZRbK+xOo" ++ [Radix64.padding] := by
  rw [computeAcceptKey, Base64.base64Encode_eq]
  decide +kernel

end Aevox
