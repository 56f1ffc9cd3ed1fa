import Tezos.P2p.Socket

/-! One direction of the channel: the bytes that were written and not read are the frames of the chunks that were boxed
    and not opened, and the messages in the chunks are those a writer boxed and still holds, and those a reader
    delivered. -/

namespace Tezos.P2pSocket
open DataEncoding Lib CryptoBox List MBytes

theorem flatten_splitFullBlocks (sz : Nat) (bytes : MBytes) (k : Nat) (acc : List MBytes) :
    (splitFullBlocks sz bytes k acc).flatten = bytes.take (k * sz) ++ acc.flatten := by
  induction k generalizing acc with
  | zero => rw [splitFullBlocks, zero_mul, take_zero, nil_append]
  | succ k ih => rw [splitFullBlocks, ih, flatten_cons, ← append_assoc, Nat.succ_mul, take_add]

theorem flatten_cut (sz : Nat) (bytes : MBytes) : (cut sz bytes).flatten = bytes := by
  unfold cut
  split
  · exact append_nil bytes
  · rw [flatten_splitFullBlocks]
    split
    · rename_i hfull
      rw [hfull, take_length]
      exact append_nil bytes
    · rw [flatten_singleton, take_of_length_le (le_of_eq length_drop), take_append_drop]

variable {PublicKey SecretKey ChannelKey Nonce Msg Stream : Type}
variable (crypto : CryptoBox PublicKey SecretKey ChannelKey Nonce)

/-- A chunk in its box, without the zeros. -/
def sealed (key : ChannelKey) (chunk : Nonce × MBytes) : MBytes :=
  (crypto.box key chunk.1 (replicate zerobytes 0 ++ chunk.2)).drop boxzerobytes

def frame (key : ChannelKey) (chunk : Nonce × MBytes) : MBytes :=
  toBE headerLength (sealed crypto key chunk).length ++ sealed crypto key chunk

variable {crypto} {key : ChannelKey} {chunk : Nonce × MBytes} {msg : MBytes} {tx tx' : Tx ChannelKey Nonce Msg}

theorem length_sealed : (sealed crypto key chunk).length = chunk.2.length + boxextrabytes := by
  rw [sealed, length_drop, crypto.length_box, length_append, add_comm]
  rfl

theorem length_sealed_lt (h : chunk.2.length ≤ maxContentLength) : (sealed crypto key chunk).length < 2 ^ 16 := by
  have hmax : maxContentLength + boxextrabytes < 2 ^ 16 := by decide
  rw [length_sealed]
  exact Nat.lt_of_le_of_lt (Nat.add_le_add_right h _) hmax

theorem setInt16_eq {buf : MBytes} {ofs n : Nat} (hlen : ofs + 2 ≤ buf.length) (hn : n < 2 ^ 16) :
    setInt16 buf ofs n = .ok (buf.take ofs ++ toBE 2 n ++ buf.drop (ofs + 2)) := by
  have hwrap : wrap 16 (n : Int) = n := by
    have hmod := @wrap_of_nonneg 16 n (Int.natCast_nonneg n) (by exact_mod_cast hn)
    exact_mod_cast hmod
  rw [setInt16, hwrap, blit, length_toBE, if_pos hlen]

/-- What is written is a chunk that is not too long, as its frame; the nonce it is boxed with is then incremented. -/
theorem writeChunk_ok {payload : MBytes} (h : writeChunk crypto msg tx = .ok (payload, tx')) :
    msg.length ≤ maxContentLength ∧ payload = frame crypto tx.channelKey (tx.localNonce, msg) ∧
      tx' = { tx with localNonce := crypto.incrementNonce tx.localNonce, boxed := tx.boxed ++ [(tx.localNonce, msg)],
                      payloads := tx.payloads ++ [payload] } := by
  unfold writeChunk at h
  split at h
  · rename_i hle
    have hleng : (crypto.box tx.channelKey tx.localNonce (replicate zerobytes 0 ++ msg)).length =
        zerobytes + msg.length := by
      rw [crypto.length_box, length_append, length_replicate]
    have hsize : msg.length + zerobytes - boxzerobytes =
        (sealed crypto tx.channelKey (tx.localNonce, msg)).length := by
      rw [length_sealed]
      rfl
    have hhdr : boxzerobytes - headerLength + 2 ≤ zerobytes + msg.length := Nat.le_add_right_of_le (by decide)
    have hlt : (sealed crypto tx.channelKey (tx.localNonce, msg)).length < 2 ^ 16 := length_sealed_lt hle
    simp only [hsize, setInt16_eq (hleng.symm ▸ hhdr) hlt] at h
    obtain ⟨rfl, rfl⟩ := Prod.mk.inj (Except.ok.inj h)
    refine ⟨hle, ?_, rfl⟩
    rw [append_assoc, drop_left']
    · rfl
    · rw [length_take, hleng]
      exact Nat.min_eq_left (Nat.le_of_add_right_le hhdr)
  · cases h

theorem generateNonces_swap (incoming : Bool) (sent recv : MBytes) :
    crypto.generateNonces (!incoming) recv sent = (crypto.generateNonces incoming sent recv).swap := by
  cases incoming <;> rfl

theorem recvMsg_sentMsg (peer : Peer SecretKey) : recvMsg peer.sentMsg = peer.sentMsg := by
  have htake : peer.sentMsg.take headerLength = toBE headerLength peer.message.length :=
    take_left' (length_toBE _ _)
  have hdrop : peer.sentMsg.drop headerLength = peer.message := drop_left' (length_toBE _ _)
  have hlen : ofBE (toBE headerLength peer.message.length) = peer.message.length := by
    rw [ofBE_toBE]
    exact Nat.mod_eq_of_lt peer.length_message
  simp only [recvMsg, htake, hdrop, hlen, take_length]
  rfl

variable {codec : Codec Msg Stream} {rx rx' : Rx ChannelKey Nonce Msg Stream} {wire : MBytes}

def Codec.bytes (codec : Codec Msg Stream) (msgs : List Msg) : MBytes := msgs.flatMap fun msg => (codec.toBytes msg).getD []

theorem Codec.bytes_append (before after : List Msg) :
    codec.bytes (before ++ after) = codec.bytes before ++ codec.bytes after :=
  flatMap_append

/-- The chunks have the nonces from the first one on, up to the second one. -/
def Consecutive (increment : Nonce → Nonce) : Nonce → List (Nonce × MBytes) → Nonce → Prop
  | nonce, [], last => nonce = last
  | nonce, chunk :: chunks, last => chunk.1 = nonce ∧ Consecutive increment (increment nonce) chunks last

theorem Consecutive.concat {increment : Nonce → Nonce} {nonce last : Nonce} {chunks : List (Nonce × MBytes)}
    (h : Consecutive increment nonce chunks last) (msg : MBytes) :
    Consecutive increment nonce (chunks ++ [(last, msg)]) (increment last) := by
  induction chunks generalizing nonce with
  | nil => exact ⟨h.symm, congrArg increment h⟩
  | cons chunk chunks ih => exact ⟨h.1, ih h.2⟩

/-- The bytes of a frame that `read_chunk` took so far. -/
def Reading.bytes : Reading → MBytes
  | .decode => []
  | .header got => got
  | .body encryptedLength got => toBE headerLength encryptedLength ++ got

def Reading.Bounded : Reading → Prop
  | .decode => True
  | .header got => got.length ≤ headerLength
  | .body encryptedLength got => encryptedLength < 2 ^ 16 ∧ got.length ≤ encryptedLength

def Rx.arrived (rx : Rx ChannelKey Nonce Msg Stream) : MBytes := rx.partialRead.getD [] ++ rx.readQueue.flatten

theorem readFrom_append (len : Nat) (msg : MBytes) : (readFrom len msg).1 ++ (readFrom len msg).2.getD [] = msg := by
  simp only [readFrom]
  split
  · exact take_append_drop _ msg
  · rename_i hlt
    rw [take_of_length_le (Nat.le_of_not_lt hlt)]
    exact append_nil msg

theorem length_readFrom (len : Nat) (msg : MBytes) : (readFrom len msg).1.length ≤ len := by
  rw [readFrom, length_take]
  exact le_trans (min_le_left _ _) (min_le_left _ _)

variable {bytes got : MBytes} {n : Nat} {e : End ChannelKey Nonce Msg Stream} {readsMetadata : MBytes → Bool}
  {sending : List MBytes}

theorem read_some {len : Nat} (h : read len rx = some (bytes, rx')) :
    bytes.length ≤ len ∧ bytes ++ rx'.arrived = rx.arrived ∧
      rx' = { rx with partialRead := rx'.partialRead, readQueue := rx'.readQueue } := by
  unfold read at h
  split at h
  · rename_i msg hpar
    obtain ⟨rfl, rfl⟩ := Prod.mk.inj (Option.some_inj.mp h)
    refine ⟨length_readFrom len msg, ?_, rfl⟩
    rw [Rx.arrived, ← append_assoc, readFrom_append, Rx.arrived, hpar]
    rfl
  · rename_i hpar
    split at h
    · cases h
    · rename_i msg readQueue hqueue
      obtain ⟨rfl, rfl⟩ := Prod.mk.inj (Option.some_inj.mp h)
      refine ⟨length_readFrom len msg, ?_, rfl⟩
      rw [Rx.arrived, ← append_assoc, readFrom_append, Rx.arrived, hpar, hqueue]
      rfl

theorem toBE_ofBE_header (h : got.length = headerLength) : toBE headerLength (ofBE got) = got := by
  obtain ⟨a, b, rfl⟩ := length_eq_two.mp h
  have hval : ofBE [a, b] = a.toNat * 256 + b.toNat := by
    simp only [ofBE, length_cons, length_nil, zero_add, pow_zero, pow_one, mul_one, add_zero]
  have hb := b.toNat_lt
  have hhigh : UInt8.ofNat (ofBE [a, b] / 256) = a := by
    have ha := a.toNat_lt
    rw [← UInt8.toNat_inj, UInt8.toNat_ofNat']
    omega
  have hlow : UInt8.ofNat (ofBE [a, b]) = b := by
    rw [← UInt8.toNat_inj, UInt8.toNat_ofNat']
    omega
  show [UInt8.ofNat (ofBE [a, b] / 256 ^ 1), UInt8.ofNat (ofBE [a, b] / 256 ^ 0)] = [a, b]
  rw [Nat.pow_one, Nat.pow_zero, Nat.div_one, hhigh, hlow]

/-! ### The direction -/

structure Link (crypto : CryptoBox PublicKey SecretKey ChannelKey Nonce) (tx : Tx ChannelKey Nonce Msg)
    (rx : Rx ChannelKey Nonce Msg Stream) (wire : MBytes) : Prop where
  key : rx.channelKey = tx.channelKey
  size : ∀ chunk ∈ tx.boxed, chunk.2.length ≤ maxContentLength
  payloads : tx.payloads = tx.boxed.map (frame crypto tx.channelKey)
  stream : ∃ chunks, tx.boxed = rx.opened ++ chunks ∧
    Consecutive crypto.incrementNonce rx.remoteNonce chunks tx.localNonce ∧
    rx.reading.bytes ++ rx.arrived ++ wire = (chunks.map (frame crypto tx.channelKey)).flatten
  bounded : rx.reading.Bounded

section
variable (h : Link crypto tx rx wire)
include h

theorem Link.writeChunk {msg payload : MBytes}
    (hw : writeChunk crypto msg tx = .ok (payload, tx')) : Link crypto { tx' with sending } rx (wire ++ payload) := by
  obtain ⟨hlen, rfl, rfl⟩ := writeChunk_ok hw
  obtain ⟨chunks, hbox, hnonc, hbyt⟩ := h.stream
  refine ⟨h.key, ?_, ?_, ⟨chunks ++ [(tx.localNonce, msg)], ?_, hnonc.concat msg, ?_⟩, h.bounded⟩
  · intro chunk hmem
    rcases mem_append.mp hmem with hmem | hnew
    · exact h.size chunk hmem
    · rw [mem_singleton.mp hnew]
      exact hlen
  · rw [h.payloads, map_append]
    rfl
  · rw [hbox, append_assoc]
  · rw [← append_assoc, hbyt, map_append, flatten_append]
    exact congrArg _ (append_nil _).symm

theorem Link.deliver (len : Nat) :
    Link crypto tx { rx with readQueue := rx.readQueue ++ [wire.take len] } (wire.drop len) := by
  obtain ⟨chunks, hbox, hnonc, hbyt⟩ := h.stream
  refine ⟨h.key, h.size, h.payloads, ⟨chunks, hbox, hnonc, ?_⟩, h.bounded⟩
  rw [← hbyt]
  show rx.reading.bytes ++ (rx.partialRead.getD [] ++ (rx.readQueue ++ [wire.take len]).flatten) ++ wire.drop len = _
  rw [flatten_append, flatten_singleton, Rx.arrived, ← append_assoc (rx.partialRead.getD []),
    ← append_assoc rx.reading.bytes, append_assoc _ (wire.take len), take_append_drop]

theorem Link.setReading (hrx : rx'.channelKey = rx.channelKey) (hopn : rx'.opened = rx.opened)
    (hnonce : rx'.remoteNonce = rx.remoteNonce)
    (hbyt : rx'.reading.bytes ++ rx'.arrived = rx.reading.bytes ++ rx.arrived) (hboun : rx'.reading.Bounded) :
    Link crypto tx rx' wire := by
  obtain ⟨chunks, hbox, hnonc, heq⟩ := h.stream
  refine ⟨hrx.trans h.key, h.size, h.payloads, ⟨chunks, ?_, ?_, ?_⟩, hboun⟩
  · rw [hopn]
    exact hbox
  · rw [hnonce]
    exact hnonc
  · rw [hbyt]
    exact heq

theorem Link.readHeader (hrdg : rx.reading = .header got) (hgot : got.length < headerLength)
    (hread : read (headerLength - got.length) rx = some (bytes, rx')) :
    Link crypto tx { rx' with reading := .header (got ++ bytes) } wire := by
  obtain ⟨hlen, harr, hrx⟩ := read_some hread
  rw [hrx]
  refine h.setReading rfl rfl rfl ?_ ?_
  · show got ++ bytes ++ rx'.arrived = _
    rw [append_assoc, harr, hrdg]
    rfl
  · show (got ++ bytes).length ≤ headerLength
    rw [length_append]
    omega

theorem Link.readBody (hrdg : rx.reading = .body n got) (hgot : got.length < n)
    (hread : read (n - got.length) rx = some (bytes, rx')) :
    Link crypto tx { rx' with reading := .body n (got ++ bytes) } wire := by
  obtain ⟨hlen, harr, hrx⟩ := read_some hread
  have hboun := h.bounded
  rw [hrdg] at hboun
  rw [hrx]
  refine h.setReading rfl rfl rfl ?_ ⟨hboun.1, ?_⟩
  · show toBE headerLength n ++ (got ++ bytes) ++ rx'.arrived = _
    rw [append_assoc, append_assoc, harr, hrdg]
    rfl
  · rw [length_append]
    omega

theorem Link.startBody (hrdg : rx.reading = .header got) (hgot : ¬got.length < headerLength) :
    Link crypto tx { rx with reading := .body (ofBE got) [] } wire := by
  have hboun := h.bounded
  rw [hrdg] at hboun
  have hlen : got.length = headerLength := Nat.le_antisymm hboun (Nat.le_of_not_lt hgot)
  refine h.setReading rfl rfl rfl ?_ ⟨?_, Nat.zero_le _⟩
  · show toBE headerLength (ofBE got) ++ [] ++ rx.arrived = _
    rw [append_nil, toBE_ofBE_header hlen, hrdg]
    rfl
  · have hlt := ofBE_lt got
    rw [hlen] at hlt
    exact hlt

omit h in
theorem frame_inj {rest rest' : MBytes} (hsize : chunk.2.length ≤ maxContentLength) (hn : n < 2 ^ 16)
    (hgot : got.length = n) (h : toBE headerLength n ++ got ++ rest = frame crypto key chunk ++ rest') :
    got = sealed crypto key chunk ∧ rest = rest' := by
  rw [frame, append_assoc, append_assoc] at h
  obtain ⟨hhdr, hrest⟩ := append_inj h (by rw [length_toBE, length_toBE])
  have hval := congrArg ofBE hhdr
  rw [ofBE_toBE, ofBE_toBE] at hval
  have hlen : n = _ := (Nat.mod_eq_of_lt hn).symm.trans (hval.trans (Nat.mod_eq_of_lt (length_sealed_lt hsize)))
  exact append_inj hrest (hgot.trans hlen)

/-- A frame that was read to its end is opened as the chunk it was made of, with the nonce it was boxed with. -/
theorem Link.open (hrdg : rx.reading = .body n got) (hgot : ¬got.length < n) :
    ∃ chunk, crypto.boxOpen rx.channelKey rx.remoteNonce (replicate boxzerobytes 0 ++ got) =
        some (replicate zerobytes 0 ++ chunk) ∧
      Link crypto tx { rx with remoteNonce := crypto.incrementNonce rx.remoteNonce, reading := .header [],
                               opened := rx.opened ++ [(rx.remoteNonce, chunk)] } wire := by
  obtain ⟨chunks, hbox, hnonc, hbyt⟩ := h.stream
  have hboun := h.bounded
  rw [hrdg] at hboun hbyt
  rcases chunks with _ | ⟨first, chunks⟩
  · exact absurd (congrArg length hbyt) (by simp [Reading.bytes, length_toBE, headerLength])
  · obtain ⟨nonce, chunk⟩ := first
    obtain ⟨rfl, hnonc⟩ := hnonc
    have hsize : chunk.length ≤ maxContentLength :=
      h.size (_, chunk) (hbox ▸ mem_append_right _ mem_cons_self)
    rw [append_assoc] at hbyt
    obtain ⟨rfl, hrest⟩ := frame_inj hsize hboun.1 (Nat.le_antisymm hboun.2 (Nat.le_of_not_lt hgot)) hbyt
    refine ⟨chunk, ?_, h.key, h.size, h.payloads, ⟨chunks, ?_, hnonc, hrest⟩, Nat.zero_le _⟩
    · rw [h.key]
      exact crypto.boxOpen_box _ _ _
    · rw [hbox, append_assoc]
      rfl

end

theorem Link.receive {chunk : MBytes} (h : Link crypto tx e.rx wire) (hrdg : e.rx.reading = .header []) :
    Link crypto tx (receive readsMetadata chunk e).rx wire := by
  unfold P2pSocket.receive
  split
  · exact h
  · exact h.setReading rfl rfl rfl (by rw [hrdg]; rfl) trivial
  · exact h.setReading rfl rfl rfl (by rw [hrdg]; rfl) trivial

theorem Link.readStep (h : Link crypto tx e.rx wire) :
    Link crypto tx (readStep crypto codec readsMetadata e).rx wire := by
  unfold P2pSocket.readStep
  split
  · rename_i hrdg
    split
    · exact h.setReading rfl rfl rfl rfl h.bounded
    · exact h.setReading rfl rfl rfl (by rw [hrdg]; rfl) (Nat.zero_le _)
    · exact h
  · rename_i got hrdg
    split
    · rename_i hgot
      split
      · exact h
      · rename_i hread
        exact h.readHeader hrdg hgot hread
    · rename_i hgot
      show Link crypto tx (if ofBE got = 0 then _ else _ : End ChannelKey Nonce Msg Stream).rx wire
      split
      · exact h
      · exact h.startBody hrdg hgot
  · rename_i n got hrdg
    split
    · rename_i hgot
      split
      · exact h
      · rename_i hread
        exact h.readBody hrdg hgot hread
    · rename_i hgot
      obtain ⟨chunk, hopen, hlink⟩ := h.open hrdg hgot
      simp only [openChunk, hopen, drop_left' length_replicate]
      exact hlink.receive rfl

/-! ### The messages -/

variable {bytes chunk payload : MBytes} {msg : Msg} {chunks : List (Nonce × MBytes)} {len : Nat} {written : List Msg}

theorem Codec.bytes_cons (h : codec.toBytes msg = some bytes) (rest : List Msg) :
    codec.bytes (msg :: rest) = bytes ++ codec.bytes rest := by
  rw [Codec.bytes, flatMap_cons, h]
  rfl

theorem Codec.length_pos (h : codec.toBytes msg = some bytes) : 0 < bytes.length := by
  refine length_pos_iff.mpr fun hnil => ?_
  have hemp : codec.contents codec.empty ++ ([] : List MBytes).flatten = [] := by
    rw [codec.contents_empty]
    rfl
  obtain ⟨stream, hsuc, -, -⟩ :=
    codec.readStream_success msg bytes codec.empty [] [] h codec.valid_empty (by rw [hemp, hnil]; rfl)
      (fun before last hlast => absurd hlast (by simp))
  rw [codec.readStream_nil _ _ codec.valid_empty hemp] at hsuc
  cases hsuc

/-- The bytes of the messages in chunks: the first two are the metadata and the answer. -/
def messageBytes (chunks : List (Nonce × MBytes)) : MBytes := ((chunks.drop 2).map Prod.snd).flatten

theorem messageBytes_of_length_le (h : chunks.length ≤ 2) : messageBytes chunks = [] := by
  rw [messageBytes, drop_eq_nil_of_le h]
  rfl

theorem messageBytes_concat (h : 2 ≤ chunks.length) (chunk : Nonce × MBytes) :
    messageBytes (chunks ++ [chunk]) = messageBytes chunks ++ chunk.2 := by
  rw [messageBytes, drop_append_of_le_length h, map_append, flatten_append]
  exact congrArg _ (append_nil _)

theorem messageBytes_mono {chunks' : List (Nonce × MBytes)} (h : chunks <+: chunks') :
    messageBytes chunks <+: messageBytes chunks' := by
  obtain ⟨after, rfl⟩ := h
  rw [messageBytes, messageBytes, drop_append, map_append, flatten_append]
  exact prefix_append _ _

structure Writes (codec : Codec Msg Stream) (tx : Tx ChannelKey Nonce Msg) : Prop where
  encoded : ∀ msg ∈ tx.written, ∃ bytes, codec.toBytes msg = some bytes
  bytes : messageBytes tx.boxed ++ (tx.sending.flatten ++ tx.messages.flatten.flatten) = codec.bytes tx.written

theorem Writes.setup (h : Writes codec tx) (hsen : tx.sending = []) (hbox : tx.boxed.length ≤ 1)
    (hw : writeChunk crypto chunk tx = .ok (payload, tx')) : Writes codec { tx' with sending := [] } := by
  obtain ⟨-, -, rfl⟩ := writeChunk_ok hw
  refine ⟨h.encoded, ?_⟩
  have hbyt := h.bytes
  rw [hsen, messageBytes_of_length_le (Nat.le_succ_of_le hbox)] at hbyt
  rw [messageBytes_of_length_le (by rw [length_append]; exact Nat.succ_le_succ hbox)]
  exact hbyt

theorem Writes.sendChunk (h : Writes codec tx) (hsen : tx.sending = chunk :: sending)
    (hbox : 2 ≤ tx.boxed.length) (hw : writeChunk crypto chunk tx = .ok (payload, tx')) :
    Writes codec { tx' with sending } := by
  obtain ⟨-, -, rfl⟩ := writeChunk_ok hw
  refine ⟨h.encoded, ?_⟩
  have hbyt := h.bytes
  rw [hsen, flatten_cons, append_assoc, ← append_assoc] at hbyt
  rw [messageBytes_concat hbox]
  exact hbyt

theorem Writes.popMessage {chunks : List MBytes} {messages : List (List MBytes)} (h : Writes codec tx)
    (hsen : tx.sending = []) (hmes : tx.messages = chunks :: messages) :
    Writes codec { tx with sending := chunks, messages } := by
  refine ⟨h.encoded, ?_⟩
  have hbyt := h.bytes
  rw [hsen, hmes, flatten_cons, flatten_append] at hbyt
  exact hbyt

theorem Writes.write (h : Writes codec tx) (hmsg : codec.toBytes msg = some bytes) (size : Nat) :
    Writes codec { tx with messages := tx.messages ++ [MBytes.cut size bytes], written := tx.written ++ [msg] } := by
  refine ⟨fun msg' hmem => ?_, ?_⟩
  · rcases mem_append.mp hmem with hmem | hnew
    · exact h.encoded msg' hmem
    · rw [mem_singleton.mp hnew]
      exact ⟨bytes, hmsg⟩
  · rw [flatten_append, flatten_append, flatten_singleton, flatten_cut, ← append_assoc,
      ← append_assoc, append_assoc (messageBytes _), h.bytes, Codec.bytes_append, Codec.bytes_cons hmsg]
    exact congrArg _ (append_nil _).symm

/-! ### The reader -/

def Rx.delivered (rx : Rx ChannelKey Nonce Msg Stream) : List Msg := (rx.popped ++ rx.messages).map Prod.snd

def Rx.held (codec : Codec Msg Stream) (rx : Rx ChannelKey Nonce Msg Stream) : MBytes :=
  codec.contents rx.init ++ rx.buffers.flatten

/-- A reader that takes a chunk holds less than a message of this length; one that is about to decode held less
    before its last buffer. -/
def Rx.Short (codec : Codec Msg Stream) (rx : Rx ChannelKey Nonce Msg Stream) (len : Nat) : Prop :=
  match rx.reading with
  | .decode => ∀ before last, rx.buffers = before ++ [last] → (codec.contents rx.init ++ before.flatten).length < len
  | _ => (rx.held codec).length < len

structure Reads (codec : Codec Msg Stream) (written : List Msg) (rx : Rx ChannelKey Nonce Msg Stream) : Prop where
  valid : codec.Valid rx.init
  bytes : messageBytes rx.opened = codec.bytes rx.delivered ++ rx.held codec
  /-- The messages to come: none of them is whole before the last buffer. -/
  next : ∃ rest, written = rx.delivered ++ rest ∧
    ∀ msg bytes after, rest = msg :: after → codec.toBytes msg = some bytes → rx.Short codec bytes.length

theorem Rx.short_iff (hrdg : rx.reading ≠ .decode) : rx.Short codec len ↔ (rx.held codec).length < len := by
  unfold Rx.Short
  split
  · rename_i hdec
    exact absurd hdec hrdg
  · exact Iff.rfl

theorem Rx.Short.decode {remoteNonce : Nonce} {opened : List (Nonce × MBytes)} (h : rx.Short codec len)
    (hrdg : rx.reading ≠ .decode) : Rx.Short codec { rx with remoteNonce, opened, reading := .decode } len := by
  intro before last hbuf
  refine lt_of_le_of_lt (IsPrefix.length_le ⟨[last].flatten, ?_⟩) ((Rx.short_iff hrdg).mp h)
  rw [append_assoc, ← flatten_append, ← hbuf]
  rfl

variable (h : Reads codec written rx)
include h

theorem Reads.held_prefix_ {rest : List Msg} (hrest : written = rx.delivered ++ rest)
    (hbyt : messageBytes rx.opened <+: codec.bytes written) : rx.held codec <+: codec.bytes rest := by
  rw [h.bytes, hrest, Codec.bytes_append] at hbyt
  exact (prefix_append_right_inj _).mp hbyt

omit h in
theorem Rx.short_of_held_nil (h : rx.held codec = []) (hlen : 0 < len) : rx.Short codec len := by
  unfold Rx.Short
  split
  · intro before last hbuf
    have hlast : (codec.contents rx.init ++ before.flatten) ++ [last].flatten = [] := by
      rw [append_assoc, ← flatten_append, ← hbuf]
      exact h
    rw [(append_eq_nil_iff.mp hlast).1]
    exact hlen
  · rw [h]
    exact hlen

theorem Reads.write (hbyt : messageBytes rx.opened <+: codec.bytes written) (msg : Msg) :
    Reads codec (written ++ [msg]) rx := by
  obtain ⟨rest, hrest, hsh⟩ := h.next
  refine ⟨h.valid, h.bytes, rest ++ [msg], by rw [hrest, append_assoc], ?_⟩
  intro first bytes after hfst htoBytes
  rcases rest with _ | ⟨first', rest⟩
  · have hheld : rx.held codec = [] := prefix_nil.mp (h.held_prefix_ hrest hbyt)
    exact Rx.short_of_held_nil hheld (Codec.length_pos htoBytes)
  · obtain ⟨rfl, -⟩ := cons.inj hfst
    exact hsh first' bytes rest rfl htoBytes

theorem Reads.goOn (hinit : rx'.init = rx.init) (hbuf : rx'.buffers = rx.buffers)
    (hdel : rx'.delivered = rx.delivered) (hopen : messageBytes rx'.opened = messageBytes rx.opened)
    (hsh : ∀ len, rx.Short codec len → rx'.Short codec len) : Reads codec written rx' := by
  obtain ⟨rest, hrest, hnext⟩ := h.next
  refine ⟨?_, ?_, rest, ?_, fun msg bytes after hfst htoBytes => hsh _ (hnext msg bytes after hfst htoBytes)⟩
  · rw [hinit]
    exact h.valid
  · rw [hopen, hdel, Rx.held, hinit, hbuf]
    exact h.bytes
  · rw [hdel]
    exact hrest

theorem Reads.receive (hrdg : rx.reading ≠ .decode) (hopen : 2 ≤ rx.opened.length) (nonce remoteNonce : Nonce)
    (chunk : MBytes) :
    Reads codec written { rx with remoteNonce, opened := rx.opened ++ [(nonce, chunk)], buffers := rx.buffers ++ [chunk],
                                  reading := .decode } := by
  obtain ⟨rest, hrest, hnext⟩ := h.next
  refine ⟨h.valid, ?_, rest, hrest, fun msg bytes after hfst htoBytes before last hlast => ?_⟩
  · show messageBytes (rx.opened ++ [_]) = codec.bytes rx.delivered ++ (_ ++ (rx.buffers ++ [chunk]).flatten)
    rw [messageBytes_concat hopen, h.bytes, flatten_append, flatten_singleton, Rx.held]
    simp only [append_assoc]
  · obtain ⟨rfl, -⟩ := append_inj' (show rx.buffers ++ [chunk] = before ++ [last] from hlast) rfl
    exact (Rx.short_iff hrdg).mp (hnext msg bytes after hfst htoBytes)

theorem Reads.decode (hrdg : rx.reading = .decode) (henc : ∀ msg ∈ written, ∃ bytes, codec.toBytes msg = some bytes)
    (hbyt : messageBytes rx.opened <+: codec.bytes written) :
    codec.readStream rx.init rx.buffers = .await ∧ Reads codec written { rx with reading := .header [] } ∨
      ∃ result size stream, codec.readStream rx.init rx.buffers = .success result size stream ∧
        Reads codec written { rx with messages := rx.messages ++ [(size, result)], init := stream, buffers := [] } := by
  obtain ⟨rest, hrest, hnext⟩ := h.next
  have hheld := h.held_prefix_ hrest hbyt
  rcases rest with _ | ⟨msg, rest⟩
  · refine .inl ⟨codec.readStream_nil _ _ h.valid (prefix_nil.mp hheld), h.valid, h.bytes, [], hrest, ?_⟩
    exact fun msg bytes after hfst => absurd hfst nofun
  · obtain ⟨bytes, hmsg⟩ := henc msg (hrest ▸ mem_append_right _ mem_cons_self)
    rw [Codec.bytes_cons hmsg] at hheld
    rcases lt_or_ge (rx.held codec).length bytes.length with hlt | hge
    · have hwhl : rx.held codec <+: bytes :=
        prefix_of_prefix_length_le hheld (prefix_append _ _) (le_of_lt hlt)
      refine .inl ⟨codec.readStream_await msg bytes _ _ hmsg h.valid hwhl hlt, h.valid, h.bytes, msg :: rest, hrest, ?_⟩
      intro first bytes' after hfst htoBytes
      obtain ⟨rfl, -⟩ := cons.inj hfst
      rw [hmsg] at htoBytes
      obtain rfl := Option.some_inj.mp htoBytes
      exact hlt
    · obtain ⟨after, haft⟩ := prefix_of_prefix_length_le (prefix_append _ _) hheld hge
      have hsh := hnext msg bytes rest rfl hmsg
      rw [Rx.Short, hrdg] at hsh
      obtain ⟨stream, hsuc, hcont, hval⟩ :=
        codec.readStream_success msg bytes _ _ after hmsg h.valid haft.symm hsh
      have hdel : ((rx.popped ++ (rx.messages ++ [(bytes.length, msg)])).map Prod.snd) = rx.delivered ++ [msg] := by
        rw [← append_assoc, map_append]
        rfl
      refine .inr ⟨msg, bytes.length, stream, hsuc, hval, ?_, rest, ?_, ?_⟩
      · show _ = codec.bytes ((rx.popped ++ _).map Prod.snd) ++ (codec.contents stream ++ [])
        rw [h.bytes, hdel, Codec.bytes_append, Codec.bytes_cons hmsg, hcont, append_nil, append_assoc,
          ← haft]
        exact congrArg _ (congrArg (· ++ after) (append_nil bytes).symm)
      · show written = (rx.popped ++ _).map Prod.snd ++ rest
        rw [hdel, hrest, append_assoc]
        rfl
      · intro first bytes' after' hfst htoBytes
        rw [hrdg]
        exact fun before last hlast => absurd hlast (by simp)

end Tezos.P2pSocket
