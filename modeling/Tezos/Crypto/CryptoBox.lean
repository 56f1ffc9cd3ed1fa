import Tezos.DataEncoding.MBytes

/-! Authenticated encryption with a nonce (`lib_crypto/crypto_box.ml`), over the primitives of `Hacl`. -/

namespace Tezos
open DataEncoding

namespace CryptoBox

/-- The zeros before a message that is to be boxed. -/
def zerobytes : Nat := 32

/-- The zeros before a boxed message. -/
def boxzerobytes : Nat := 16

end CryptoBox

open CryptoBox in
/-- What is used of `Hacl` and `Blake2B`: both ends derive one key, and `box_open` inverts `box`, whose result begins
    with `boxzerobytes` zeros. -/
structure CryptoBox (PublicKey SecretKey ChannelKey Nonce : Type) where
  publicKey : SecretKey → PublicKey
  dh : PublicKey → SecretKey → ChannelKey
  generateNonce : List MBytes → Nonce
  incrementNonce : Nonce → Nonce
  box : ChannelKey → Nonce → MBytes → MBytes
  boxOpen : ChannelKey → Nonce → MBytes → Option MBytes
  dh_comm : ∀ a b, dh (publicKey a) b = dh (publicKey b) a
  length_box : ∀ k nonce msg, (box k nonce msg).length = msg.length
  boxOpen_box : ∀ k nonce msg,
    boxOpen k nonce (List.replicate boxzerobytes 0 ++ (box k nonce (List.replicate zerobytes 0 ++ msg)).drop boxzerobytes) =
      some (List.replicate zerobytes 0 ++ msg)

namespace CryptoBox
variable {PublicKey SecretKey ChannelKey Nonce : Type} (crypto : CryptoBox PublicKey SecretKey ChannelKey Nonce)

def precompute (sk : SecretKey) (pk : PublicKey) : ChannelKey := crypto.dh pk sk

/-- The bytes of "Init -> Resp". -/
def initToRespSeed : MBytes := [73, 110, 105, 116, 32, 45, 62, 32, 82, 101, 115, 112]

/-- The bytes of "Resp -> Init". -/
def respToInitSeed : MBytes := [82, 101, 115, 112, 32, 45, 62, 32, 73, 110, 105, 116]

/-- The nonce of what an end writes, and that of what it reads. -/
def generateNonces (incoming : Bool) (sentMsg recvMsg : MBytes) : Nonce × Nonce :=
  let (initMsg, respMsg) := if incoming then (recvMsg, sentMsg) else (sentMsg, recvMsg)
  let nonceInitToResp := crypto.generateNonce [initMsg, respMsg, initToRespSeed]
  let nonceRespToInit := crypto.generateNonce [initMsg, respMsg, respToInitSeed]
  if incoming then (nonceInitToResp, nonceRespToInit) else (nonceRespToInit, nonceInitToResp)

end CryptoBox

end Tezos
