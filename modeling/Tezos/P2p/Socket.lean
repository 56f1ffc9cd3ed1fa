import Tezos.Crypto.CryptoBox

/-! The encrypted channel between two nodes (`lib_p2p/p2p_socket.ml`), as a machine of two ends and of the bytes on
    their way between them, from the end of `authenticate` on. The two nonces of `Crypto.data` are kept with the half
    of an end that uses them. -/

namespace Tezos.P2pSocket
open DataEncoding Lib CryptoBox

def bufsize : Nat := 2 ^ 16 - 1

def headerLength : Nat := 2

def maxContentLength : Nat := bufsize - zerobytes

def boxextrabytes : Nat := zerobytes - boxzerobytes

def extrabytes : Nat := headerLength + boxextrabytes

inductive SocketError where
  | invalidMessageSize
  | invalidChunksSize (value min max : Int)
  | exn (e : Exn)

def checkBinaryChunksSize (size : Int) : Except SocketError Unit :=
  let value := size - extrabytes
  if value > 0 ∧ value ≤ maxContentLength then .ok ()
  else .error (.invalidChunksSize size (extrabytes + 1) bufsize)

/-- What `Data_encoding.Binary.read_stream` answers, to the buffers that it was given so far. -/
inductive Status (Msg Stream : Type) where
  | success (result : Msg) (size : Nat) (stream : Stream)
  | await
  | error

/-- An encoding of messages that are read back as they were written, from any cut of their bytes: nothing is read from
    no bytes, more bytes are awaited until a message is whole, and then it is read and the bytes after it are left. -/
structure Codec (Msg Stream : Type) where
  toBytes : Msg → Option MBytes
  empty : Stream
  /-- The bytes that a stream holds. -/
  contents : Stream → MBytes
  Valid : Stream → Prop
  /-- `read_stream ~init`, and the buffers given to its continuations. -/
  readStream : Stream → List MBytes → Status Msg Stream
  valid_empty : Valid empty
  contents_empty : contents empty = []
  readStream_nil : ∀ init buffers, Valid init → contents init ++ buffers.flatten = [] →
    readStream init buffers = .await
  readStream_await : ∀ msg bytes init buffers, toBytes msg = some bytes → Valid init →
    contents init ++ buffers.flatten <+: bytes → (contents init ++ buffers.flatten).length < bytes.length →
    readStream init buffers = .await
  readStream_success : ∀ msg bytes init buffers rest, toBytes msg = some bytes → Valid init →
    contents init ++ buffers.flatten = bytes ++ rest →
    (∀ before last, buffers = before ++ [last] → (contents init ++ before.flatten).length < bytes.length) →
    ∃ stream, readStream init buffers = .success msg bytes.length stream ∧ contents stream = rest ∧ Valid stream

/-- The writing half: `Writer.t`. -/
structure Tx (ChannelKey Nonce Msg : Type) where
  channelKey : ChannelKey
  localNonce : Nonce
  binaryChunksSize : Nat
  messages : List (List MBytes)
  /-- What is left of the message that the loop of `send_message` is in. -/
  sending : List MBytes
  /-- The chunks that were boxed so far, with their nonces. -/
  boxed : List (Nonce × MBytes)
  payloads : List MBytes
  /-- The messages that were written so far. -/
  written : List Msg

/-- Where a reader is. -/
inductive Reading where
  /-- In the loop of `read_message`, about to look at the status. -/
  | decode
  /-- In `read_chunk`, with what it read of the header. -/
  | header (got : MBytes)
  /-- In `read_chunk`, with what it read of the boxed bytes. -/
  | body (encryptedLength : Nat) (got : MBytes)

/-- The reading half: `Reader.t`, and the connection of the I/O scheduler it reads from. -/
structure Rx (ChannelKey Nonce Msg Stream : Type) where
  channelKey : ChannelKey
  remoteNonce : Nonce
  readQueue : List MBytes
  partialRead : Option MBytes
  reading : Reading
  init : Stream
  /-- The buffers that were given to `read_stream` since `init`. -/
  buffers : List MBytes
  messages : List (Nat × Msg)
  /-- The chunks that were opened so far, with their nonces. -/
  opened : List (Nonce × MBytes)
  /-- The messages that were popped so far. -/
  popped : List (Nat × Msg)

inductive Phase where
  | sendMetadata
  | recvMetadata
  | sendAck
  | recvAck
  | running
  | closed

structure End (ChannelKey Nonce Msg Stream : Type) where
  phase : Phase
  tx : Tx ChannelKey Nonce Msg
  rx : Rx ChannelKey Nonce Msg Stream

/-- What an end brings along. -/
structure Peer (SecretKey : Type) where
  secretKey : SecretKey
  /-- Its connection message, encoded. -/
  message : MBytes
  length_message : message.length < 2 ^ (headerLength * 8)
  metadata : MBytes
  binaryChunksSize : Option { size : Nat // checkBinaryChunksSize size = .ok () }

variable {PublicKey SecretKey ChannelKey Nonce Msg Stream : Type}
variable (crypto : CryptoBox PublicKey SecretKey ChannelKey Nonce) (codec : Codec Msg Stream)

def writeChunk (msg : MBytes) (tx : Tx ChannelKey Nonce Msg) : Except SocketError (MBytes × Tx ChannelKey Nonce Msg) :=
  if msg.length ≤ maxContentLength then
    let bufLength := msg.length + zerobytes
    let buf := List.replicate zerobytes 0 ++ msg
    let localNonce := tx.localNonce
    let buf := crypto.box tx.channelKey localNonce buf
    let encryptedLength := bufLength - boxzerobytes
    let headerPos := boxzerobytes - headerLength
    match MBytes.setInt16 buf headerPos encryptedLength with
    | .error e => .error (.exn e)
    | .ok buf =>
      let payload := buf.drop headerPos
      .ok (payload, { tx with localNonce := crypto.incrementNonce localNonce,
                              boxed := tx.boxed ++ [(localNonce, msg)], payloads := tx.payloads ++ [payload] })
  else .error .invalidMessageSize

/-- `P2p_io_scheduler.read_from`: what is read of a buffer, and what is left of it. -/
def readFrom (len : Nat) (msg : MBytes) : MBytes × Option MBytes :=
  let readLen := min len msg.length
  (msg.take readLen, if readLen < msg.length then some (msg.drop readLen) else none)

def read (len : Nat) (rx : Rx ChannelKey Nonce Msg Stream) : Option (MBytes × Rx ChannelKey Nonce Msg Stream) :=
  match rx.partialRead with
  | some msg => some ((readFrom len msg).1, { rx with partialRead := (readFrom len msg).2 })
  | none =>
    match rx.readQueue with
    | [] => none
    | msg :: readQueue => some ((readFrom len msg).1, { rx with partialRead := (readFrom len msg).2, readQueue })

/-- The byte that `Ack` is encoded as, by the tag of its case. -/
def ack : MBytes := [0]

def nack : MBytes := [255]

/-- What an end does with a chunk that it opened. -/
def receive (readsMetadata : MBytes → Bool) (chunk : MBytes) (e : End ChannelKey Nonce Msg Stream) :
    End ChannelKey Nonce Msg Stream :=
  match e.phase with
  | .recvMetadata => { e with phase := if readsMetadata chunk then .sendAck else .closed }
  | .recvAck => { e with phase := if chunk = ack then .running else .closed, rx := { e.rx with reading := .decode } }
  | _ => { e with rx := { e.rx with buffers := e.rx.buffers ++ [chunk], reading := .decode } }

def openChunk (readsMetadata : MBytes → Bool) (got : MBytes) (e : End ChannelKey Nonce Msg Stream) :
    End ChannelKey Nonce Msg Stream :=
  let remoteNonce := e.rx.remoteNonce
  match crypto.boxOpen e.rx.channelKey remoteNonce (List.replicate boxzerobytes 0 ++ got) with
  | none => { e with phase := .closed }
  | some buf =>
    let chunk := buf.drop zerobytes
    receive readsMetadata chunk
      { e with rx := { e.rx with remoteNonce := crypto.incrementNonce remoteNonce, reading := .header [],
                                 opened := e.rx.opened ++ [(remoteNonce, chunk)] } }

def readStep (readsMetadata : MBytes → Bool) (e : End ChannelKey Nonce Msg Stream) : End ChannelKey Nonce Msg Stream :=
  match e.rx.reading with
  | .decode =>
    match codec.readStream e.rx.init e.rx.buffers with
    | .success result size stream =>
      { e with rx := { e.rx with messages := e.rx.messages ++ [(size, result)], init := stream, buffers := [] } }
    | .await => { e with rx := { e.rx with reading := .header [] } }
    | .error => { e with phase := .closed }
  | .header got =>
    if got.length < headerLength then
      match read (headerLength - got.length) e.rx with
      | none => e
      | some (bytes, rx) => { e with rx := { rx with reading := .header (got ++ bytes) } }
    else
      let encryptedLength := ofBE got
      -- `read_full` asserts that it has a place to read to.
      if encryptedLength = 0 then { e with phase := .closed }
      else { e with rx := { e.rx with reading := .body encryptedLength [] } }
  | .body encryptedLength got =>
    if got.length < encryptedLength then
      match read (encryptedLength - got.length) e.rx with
      | none => e
      | some (bytes, rx) => { e with rx := { rx with reading := .body encryptedLength (got ++ bytes) } }
    else openChunk crypto readsMetadata got e

structure State (ChannelKey Nonce Msg Stream : Type) where
  ends : Bool → End ChannelKey Nonce Msg Stream
  /-- What an end wrote and the other one did not receive. -/
  wire : Bool → MBytes

/-- The connection message as it is sent, with its length. -/
def Peer.sentMsg (peer : Peer SecretKey) : MBytes := toBE headerLength peer.message.length ++ peer.message

/-- `Connection_message.read`: the header, and as many bytes as it says. -/
def recvMsg (stream : MBytes) : MBytes :=
  let len := ofBE (stream.take headerLength)
  toBE headerLength len ++ (stream.drop headerLength).take len

def Peer.chunksSize (peer : Peer SecretKey) : Nat :=
  match peer.binaryChunksSize with
  | none => maxContentLength
  | some size => size.1 - extrabytes

/-- An end that read the connection message of the other one. -/
def authenticated (incoming : Bool) (peer remote : Peer SecretKey) : End ChannelKey Nonce Msg Stream :=
  let channelKey := crypto.precompute peer.secretKey (crypto.publicKey remote.secretKey)
  let nonces := crypto.generateNonces incoming peer.sentMsg (recvMsg remote.sentMsg)
  { phase := .sendMetadata
    tx := { channelKey, localNonce := nonces.1, binaryChunksSize := peer.chunksSize, messages := [], sending := [],
            boxed := [], payloads := [], written := [] }
    rx := { channelKey, remoteNonce := nonces.2, readQueue := [], partialRead := none, reading := .header [],
            init := codec.empty, buffers := [], messages := [], opened := [], popped := [] } }

def start (peers : Bool → Peer SecretKey) : State ChannelKey Nonce Msg Stream where
  ends incoming := authenticated crypto codec incoming (peers incoming) (peers !incoming)
  wire _ := []

inductive Action (Msg : Type) where
  /-- An end goes on with `authenticate` or `accept`, up to the next read. -/
  | setup (incoming : Bool)
  | kick (incoming : Bool)
  | write (incoming : Bool) (msg : Msg)
  /-- A step of the worker of the writer: a message is popped, or a chunk is written. -/
  | send (incoming : Bool)
  /-- Bytes of an end arrive at the other one. -/
  | deliver (incoming : Bool) (len : Nat)
  | read (incoming : Bool)
  | pop (incoming : Bool)
  | close (incoming : Bool)

variable {crypto codec}

def State.setEnd (st : State ChannelKey Nonce Msg Stream) (incoming : Bool) (e : End ChannelKey Nonce Msg Stream) :
    State ChannelKey Nonce Msg Stream :=
  { st with ends := Function.update st.ends incoming e }

variable (crypto codec)

/-- An end writes a chunk, and goes on with a phase and with the rest of a message. -/
def emit (incoming : Bool) (chunk : MBytes) (phase : Phase) (sending : List MBytes)
    (st : State ChannelKey Nonce Msg Stream) : State ChannelKey Nonce Msg Stream :=
  let e := st.ends incoming
  match writeChunk crypto chunk e.tx with
  | .error _ => st.setEnd incoming { e with phase := .closed }
  | .ok (payload, tx) =>
    { st.setEnd incoming { e with phase, tx := { tx with sending } } with
      wire := Function.update st.wire incoming (st.wire incoming ++ payload) }

def step (readsMetadata : MBytes → Bool) (peers : Bool → Peer SecretKey) (st : State ChannelKey Nonce Msg Stream) :
    Action Msg → State ChannelKey Nonce Msg Stream
  | .setup incoming =>
    match (st.ends incoming).phase with
    | .sendMetadata => emit crypto incoming (peers incoming).metadata .recvMetadata [] st
    | .sendAck => emit crypto incoming ack .recvAck [] st
    | _ => st
  | .kick incoming =>
    match (st.ends incoming).phase with
    | .sendAck => emit crypto incoming nack .closed [] st
    | _ => st
  | .write incoming msg =>
    let e := st.ends incoming
    match e.phase, codec.toBytes msg with
    | .running, some bytes =>
      st.setEnd incoming
        { e with tx := { e.tx with messages := e.tx.messages ++ [MBytes.cut e.tx.binaryChunksSize bytes],
                                   written := e.tx.written ++ [msg] } }
    | _, _ => st
  | .send incoming =>
    let e := st.ends incoming
    match e.phase with
    | .running =>
      match e.tx.sending, e.tx.messages with
      | chunk :: sending, _ => emit crypto incoming chunk .running sending st
      | [], chunks :: messages => st.setEnd incoming { e with tx := { e.tx with sending := chunks, messages } }
      | [], [] => st
    | _ => st
  | .deliver incoming len =>
    let e := st.ends (!incoming)
    { st.setEnd (!incoming) { e with rx := { e.rx with readQueue := e.rx.readQueue ++ [(st.wire incoming).take len] } } with
      wire := Function.update st.wire incoming ((st.wire incoming).drop len) }
  | .read incoming =>
    match (st.ends incoming).phase with
    | .recvMetadata | .recvAck | .running =>
      st.setEnd incoming (readStep crypto codec readsMetadata (st.ends incoming))
    | _ => st
  | .pop incoming =>
    let e := st.ends incoming
    match e.rx.messages with
    | [] => st
    | msg :: messages =>
      st.setEnd incoming { e with rx := { e.rx with messages, popped := e.rx.popped ++ [msg] } }
  | .close incoming => st.setEnd incoming { (st.ends incoming) with phase := .closed }

end Tezos.P2pSocket
