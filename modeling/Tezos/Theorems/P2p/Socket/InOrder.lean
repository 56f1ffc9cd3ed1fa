import Tezos.Lib.Runs
import Tezos.Theorems.P2p.Socket.Encoding
import Tezos.Theorems.P2p.Socket.Link

/-! The messages popped at an end are the first ones of those written at the other end, in every run of the two ends.
    -/

namespace Tezos.P2pSocket
open DataEncoding Lib CryptoBox List Function P2pSocket

variable {PublicKey SecretKey ChannelKey Nonce Msg Stream : Type}
variable {crypto : CryptoBox PublicKey SecretKey ChannelKey Nonce} {codec : Codec Msg Stream}
variable {tx : Tx ChannelKey Nonce Msg} {rx rx' : Rx ChannelKey Nonce Msg Stream} {wire : MBytes}
variable {e e' : End ChannelKey Nonce Msg Stream} {readsMetadata : MBytes → Bool} {peers : Bool → Peer SecretKey}
variable {st : State ChannelKey Nonce Msg Stream}

/-- What a step of the reader does to its end. -/
inductive ReadStep (crypto : CryptoBox PublicKey SecretKey ChannelKey Nonce) (codec : Codec Msg Stream)
    (readsMetadata : MBytes → Bool) (e : End ChannelKey Nonce Msg Stream) : End ChannelKey Nonce Msg Stream → Prop where
  | closed : ReadStep crypto codec readsMetadata e { e with phase := .closed }
  | decoded (result : Msg) (size : Nat) (stream : Stream) (hreading : e.rx.reading = .decode)
      (hstatus : codec.readStream e.rx.init e.rx.buffers = .success result size stream) :
      ReadStep crypto codec readsMetadata e
        { e with rx := { e.rx with messages := e.rx.messages ++ [(size, result)], init := stream, buffers := [] } }
  | awaits (hreading : e.rx.reading = .decode) (hstatus : codec.readStream e.rx.init e.rx.buffers = .await) :
      ReadStep crypto codec readsMetadata e { e with rx := { e.rx with reading := .header [] } }
  | read (partialRead : Option MBytes) (readQueue : List MBytes) (reading : Reading) (hbefore : e.rx.reading ≠ .decode)
      (hafter : reading ≠ .decode) :
      ReadStep crypto codec readsMetadata e { e with rx := { e.rx with partialRead, readQueue, reading } }
  | opened (chunk : MBytes) (hbefore : e.rx.reading ≠ .decode) :
      ReadStep crypto codec readsMetadata e
        (receive readsMetadata chunk
          { e with rx := { e.rx with remoteNonce := crypto.incrementNonce e.rx.remoteNonce, reading := .header [],
                                     opened := e.rx.opened ++ [(e.rx.remoteNonce, chunk)] } })

theorem ReadStep.of_read {len : Nat} {bytes : MBytes} {reading : Reading}
    (hread : P2pSocket.read len e.rx = some (bytes, rx'))
    (hbefore : e.rx.reading ≠ .decode) (hafter : reading ≠ .decode) :
    ReadStep crypto codec readsMetadata e { e with rx := { rx' with reading } } := by
  obtain ⟨-, -, hrx⟩ := read_some hread
  rw [hrx]
  exact .read _ _ reading hbefore hafter

theorem readStep_cases : ReadStep crypto codec readsMetadata e (readStep crypto codec readsMetadata e) := by
  have hsame : e.rx.reading ≠ .decode → ReadStep crypto codec readsMetadata e e :=
    fun hreading => .read e.rx.partialRead e.rx.readQueue e.rx.reading hreading hreading
  unfold readStep
  split
  · rename_i hreading
    split
    · rename_i hstatus
      exact .decoded _ _ _ hreading hstatus
    · rename_i hstatus
      exact .awaits hreading hstatus
    · exact .closed
  · rename_i got hreading
    have hbefore : e.rx.reading ≠ .decode := by
      rw [hreading]
      exact nofun
    split
    · split
      · exact hsame hbefore
      · rename_i hread
        exact .of_read hread hbefore nofun
    · show ReadStep crypto codec readsMetadata e (if ofBE got = 0 then _ else _)
      split
      · exact .closed
      · exact .read _ _ _ hbefore nofun
  · rename_i n got hreading
    have hbefore : e.rx.reading ≠ .decode := by
      rw [hreading]
      exact nofun
    split
    · split
      · exact hsame hbefore
      · rename_i hread
        exact .of_read hread hbefore nofun
    · simp only [openChunk]
      split
      · exact .closed
      · exact .opened _ hbefore

theorem ReadStep.tx_eq (h : ReadStep crypto codec readsMetadata e e') : e'.tx = e.tx := by
  cases h with
  | closed | decoded | awaits | read => rfl
  | opened chunk hbefore =>
    unfold receive
    split <;> rfl

/-- How many chunks an end boxed and opened so far, by the phase it is in. -/
def End.Counted (e : End ChannelKey Nonce Msg Stream) : Prop :=
  match e.phase with
  | .sendMetadata => e.tx.boxed.length = 0 ∧ e.tx.sending = [] ∧ e.rx.opened.length = 0
  | .recvMetadata => e.tx.boxed.length = 1 ∧ e.tx.sending = [] ∧ e.rx.opened.length = 0
  | .sendAck => e.tx.boxed.length = 1 ∧ e.tx.sending = [] ∧ e.rx.opened.length = 1
  | .recvAck => 2 ≤ e.tx.boxed.length ∧ e.rx.opened.length = 1
  | .running => 2 ≤ e.tx.boxed.length ∧ 2 ≤ e.rx.opened.length
  | .closed => True

def Phase.Receives : Phase → Prop
  | .recvMetadata | .recvAck | .running => True
  | .sendMetadata | .sendAck | .closed => False

theorem End.Counted.readStep (h : e.Counted) (hph : e.phase.Receives) (hstep : ReadStep crypto codec readsMetadata e e') :
    e'.Counted := by
  cases hstep with
  | closed => trivial
  | decoded => exact h
  | awaits => exact h
  | read => exact h
  | opened chunk hbefore =>
    obtain ⟨phase, tx, rx⟩ := e
    have hlen : (rx.opened ++ [(rx.remoteNonce, chunk)]).length = rx.opened.length + 1 := length_append
    cases phase with
    | sendMetadata | sendAck | closed => exact hph.elim
    | recvMetadata =>
      obtain ⟨hbox, hsen, hopen⟩ := h
      simp only [receive]
      cases readsMetadata chunk with
      | true => exact ⟨hbox, hsen, hlen.trans (congrArg (· + 1) hopen)⟩
      | false => trivial
    | recvAck =>
      obtain ⟨hbox, hopen⟩ := h
      simp only [receive]
      by_cases hack : chunk = ack
      · rw [if_pos hack]
        exact ⟨hbox, Nat.le_of_eq (hlen.trans (congrArg (· + 1) hopen)).symm⟩
      · rw [if_neg hack]
        trivial
    | running =>
      obtain ⟨hbox, hopen⟩ := h
      exact ⟨hbox, hlen ▸ Nat.le_succ_of_le hopen⟩

theorem Reads.readStep {written : List Msg} (h : Reads codec written e.rx) (hcoun : e.Counted)
    (hph : e.phase.Receives) (henc : ∀ msg ∈ written, ∃ bytes, codec.toBytes msg = some bytes)
    (hbyt : messageBytes e.rx.opened <+: codec.bytes written) (hstep : ReadStep crypto codec readsMetadata e e') :
    Reads codec written e'.rx := by
  cases hstep with
  | closed => exact h
  | decoded result size stream hreading hstatus =>
    rcases h.decode hreading henc hbyt with ⟨hawt, -⟩ | ⟨result', size', stream', hsuc, hrds⟩
    · rw [hstatus] at hawt
      cases hawt
    · rw [hstatus] at hsuc
      obtain ⟨rfl, rfl, rfl⟩ := Status.success.inj hsuc
      exact hrds
  | awaits hreading hstatus =>
    rcases h.decode hreading henc hbyt with ⟨-, hrds⟩ | ⟨result, size, stream, hsuc, -⟩
    · exact hrds
    · rw [hstatus] at hsuc
      cases hsuc
  | read partialRead readQueue reading hbefore hafter =>
    refine h.goOn rfl rfl rfl rfl fun len hsh => ?_
    exact (Rx.short_iff hafter).mpr ((Rx.short_iff hbefore).mp hsh)
  | opened chunk hbefore =>
    obtain ⟨phase, tx, rx⟩ := e
    have hfew : rx.opened.length ≤ 1 →
        messageBytes (rx.opened ++ [(rx.remoteNonce, chunk)]) = messageBytes rx.opened := fun hopen => by
      rw [messageBytes_of_length_le (Nat.le_succ_of_le hopen),
        messageBytes_of_length_le (by rw [length_append]; exact Nat.succ_le_succ hopen)]
    cases phase with
    | sendMetadata | sendAck | closed => exact hph.elim
    | recvMetadata =>
      obtain ⟨-, -, hopen⟩ := hcoun
      refine h.goOn rfl rfl rfl (hfew (hopen.symm ▸ Nat.zero_le 1)) fun len hsh => ?_
      exact (Rx.short_iff (show Reading.header [] ≠ .decode from nofun)).mpr ((Rx.short_iff hbefore).mp hsh)
    | recvAck =>
      obtain ⟨-, hopen⟩ := hcoun
      exact h.goOn rfl rfl rfl (hfew (Nat.le_of_eq hopen)) fun len hsh => hsh.decode hbefore
    | running =>
      obtain ⟨-, hopen⟩ := hcoun
      exact h.receive hbefore hopen _ _ chunk

/-! ### The two directions -/

structure Direction (crypto : CryptoBox PublicKey SecretKey ChannelKey Nonce) (codec : Codec Msg Stream)
    (tx : Tx ChannelKey Nonce Msg) (rx : Rx ChannelKey Nonce Msg Stream) (wire : MBytes) : Prop where
  link : Link crypto tx rx wire
  writes : Writes codec tx
  reads : Reads codec tx.written rx

theorem Direction.opened_bytes (h : Direction crypto codec tx rx wire) :
    messageBytes rx.opened <+: codec.bytes tx.written := by
  obtain ⟨chunks, hbox, -, -⟩ := h.link.stream
  have hopen : rx.opened <+: tx.boxed := ⟨chunks, hbox.symm⟩
  refine (messageBytes_mono hopen).trans ?_
  rw [← h.writes.bytes]
  exact prefix_append _ _

structure Inv (crypto : CryptoBox PublicKey SecretKey ChannelKey Nonce) (codec : Codec Msg Stream)
    (st : State ChannelKey Nonce Msg Stream) : Prop where
  counted : ∀ incoming, (st.ends incoming).Counted
  direction : ∀ incoming, Direction crypto codec (st.ends incoming).tx (st.ends !incoming).rx (st.wire incoming)

variable (h : Inv crypto codec st)
include h

theorem Inv.setEnd (incoming : Bool) {wire : Bool → MBytes} (hcoun : e.Counted)
    (hout : Direction crypto codec e.tx (st.ends !incoming).rx (wire incoming))
    (hin : Direction crypto codec (st.ends !incoming).tx e.rx (wire !incoming)) :
    Inv crypto codec { st.setEnd incoming e with wire } := by
  have hself : update st.ends incoming e incoming = e := update_self ..
  have hoth : update st.ends incoming e (!incoming) = st.ends !incoming :=
    update_of_ne (Bool.not_ne_self incoming) ..
  refine ⟨fun side => ?_, fun side => ?_⟩
  · show (update st.ends incoming e side).Counted
    rcases Bool.eq_or_eq_not side incoming with rfl | rfl
    · rw [hself]
      exact hcoun
    · rw [hoth]
      exact h.counted _
  · show Direction crypto codec (update st.ends incoming e side).tx (update st.ends incoming e !side).rx _
    rcases Bool.eq_or_eq_not side incoming with rfl | rfl
    · rw [hself, hoth]
      exact hout
    · rw [Bool.not_not, hself, hoth]
      exact hin

theorem Inv.toward (incoming : Bool) :
    Direction crypto codec (st.ends !incoming).tx (st.ends incoming).rx (st.wire !incoming) := by
  have hin := h.direction !incoming
  rw [Bool.not_not] at hin
  exact hin

theorem Inv.close (incoming : Bool) :
    Inv crypto codec (st.setEnd incoming { (st.ends incoming) with phase := .closed }) :=
  h.setEnd incoming trivial (h.direction incoming) (h.toward incoming)

theorem Inv.emit {incoming : Bool} {chunk : MBytes} {phase : Phase} {sending : List MBytes}
    (hcoun : ∀ tx : Tx ChannelKey Nonce Msg, tx.boxed.length = (st.ends incoming).tx.boxed.length + 1 →
      tx.sending = sending → End.Counted { (st.ends incoming) with phase, tx })
    (hwrit : ∀ payload tx, writeChunk crypto chunk (st.ends incoming).tx = .ok (payload, tx) →
      Writes codec { tx with sending }) : Inv crypto codec (emit crypto incoming chunk phase sending st) := by
  simp only [P2pSocket.emit]
  split
  · exact h.close incoming
  · rename_i payload tx hw
    have hdir := h.direction incoming
    obtain ⟨-, -, htx⟩ := writeChunk_ok hw
    refine h.setEnd incoming (hcoun _ ?_ rfl) ⟨?_, hwrit payload tx hw, ?_⟩ ?_
    · rw [htx]
      exact length_append
    · rw [update_self]
      exact hdir.link.writeChunk hw
    · rw [htx]
      exact hdir.reads
    · rw [update_of_ne (Bool.not_ne_self incoming)]
      exact h.toward incoming

section
variable (incoming : Bool)
include incoming

theorem Inv.setup : Inv crypto codec (step crypto codec readsMetadata peers st (.setup incoming)) := by
  have hcoun := h.counted incoming
  have hwrit := (h.direction incoming).writes
  simp only [step]
  split
  · rename_i hph
    rw [End.Counted, hph] at hcoun
    obtain ⟨hbox, hsen, hopen⟩ := hcoun
    refine h.emit (fun tx hlen hnone => ⟨hlen.trans (congrArg (· + 1) hbox), hnone, hopen⟩) fun payload tx hw => ?_
    exact hwrit.setup hsen (hbox.symm ▸ Nat.zero_le 1) hw
  · rename_i hph
    rw [End.Counted, hph] at hcoun
    obtain ⟨hbox, hsen, hopen⟩ := hcoun
    refine h.emit (fun tx hlen hnone => ⟨?_, hopen⟩) fun payload tx hw => ?_
    · exact Nat.le_of_eq (hlen.trans (congrArg (· + 1) hbox)).symm
    · exact hwrit.setup hsen (Nat.le_of_eq hbox) hw
  · exact h

theorem Inv.kick : Inv crypto codec (step crypto codec readsMetadata peers st (.kick incoming)) := by
  have hcoun := h.counted incoming
  simp only [step]
  split
  · rename_i hph
    rw [End.Counted, hph] at hcoun
    obtain ⟨hbox, hsen, -⟩ := hcoun
    refine h.emit (fun tx hlen hnone => trivial) fun payload tx hw => ?_
    exact (h.direction incoming).writes.setup hsen (Nat.le_of_eq hbox) hw
  · exact h

theorem Inv.write (msg : Msg) : Inv crypto codec (step crypto codec readsMetadata peers st (.write incoming msg)) := by
  have hdir := h.direction incoming
  simp only [step]
  split
  · rename_i bytes hph hmsg
    have hcoun := h.counted incoming
    rw [End.Counted, hph] at hcoun
    refine h.setEnd incoming ?_
      ⟨⟨hdir.link.key, hdir.link.size, hdir.link.payloads, hdir.link.stream, hdir.link.bounded⟩,
      hdir.writes.write hmsg _, hdir.reads.write hdir.opened_bytes msg⟩ (h.toward incoming)
    rw [hph]
    exact hcoun
  · exact h

theorem Inv.send : Inv crypto codec (step crypto codec readsMetadata peers st (.send incoming)) := by
  have hcoun := h.counted incoming
  have hdir := h.direction incoming
  simp only [step]
  split
  · rename_i hph
    rw [End.Counted, hph] at hcoun
    obtain ⟨hbox, hopen⟩ := hcoun
    split
    · rename_i chunk sending hsen
      refine h.emit (fun tx hlen _ => ⟨hlen ▸ Nat.le_succ_of_le hbox, hopen⟩) fun payload tx hw => ?_
      exact hdir.writes.sendChunk hsen hbox hw
    · rename_i chunks messages hsen hmes
      refine h.setEnd incoming ?_
        ⟨⟨hdir.link.key, hdir.link.size, hdir.link.payloads, hdir.link.stream, hdir.link.bounded⟩,
        hdir.writes.popMessage hsen hmes, hdir.reads⟩ (h.toward incoming)
      rw [hph]
      exact ⟨hbox, hopen⟩
    · exact h
  · exact h

theorem Inv.deliver (len : Nat) :
    Inv crypto codec (step crypto codec readsMetadata peers st (.deliver incoming len)) := by
  have hin := h.direction incoming
  refine h.setEnd (!incoming) (h.counted !incoming) ?_ ?_
  · rw [update_of_ne (Bool.not_ne_self incoming)]
    exact h.direction !incoming
  · rw [Bool.not_not, update_self]
    refine ⟨hin.link.deliver len, hin.writes, hin.reads.goOn rfl rfl rfl rfl fun _ hsh => hsh⟩

theorem Inv.read : Inv crypto codec (step crypto codec readsMetadata peers st (.read incoming)) := by
  have hin := h.toward incoming
  have hread : (st.ends incoming).phase.Receives →
      Inv crypto codec (st.setEnd incoming (readStep crypto codec readsMetadata (st.ends incoming))) := fun hph => by
    refine h.setEnd incoming ((h.counted incoming).readStep hph readStep_cases) ?_ ⟨hin.link.readStep, hin.writes, ?_⟩
    · rw [readStep_cases.tx_eq]
      exact h.direction incoming
    · exact hin.reads.readStep (h.counted incoming) hph hin.writes.encoded hin.opened_bytes readStep_cases
  simp only [step]
  split
  · rename_i hph
    exact hread (hph ▸ trivial)
  · rename_i hph
    exact hread (hph ▸ trivial)
  · rename_i hph
    exact hread (hph ▸ trivial)
  · exact h

theorem Inv.pop : Inv crypto codec (step crypto codec readsMetadata peers st (.pop incoming)) := by
  have hin := h.toward incoming
  simp only [step]
  split
  · exact h
  · rename_i msg messages hmes
    refine h.setEnd incoming (h.counted incoming) (h.direction incoming) ⟨?_, hin.writes, ?_⟩
    · exact hin.link.setReading rfl rfl rfl rfl hin.link.bounded
    · refine hin.reads.goOn rfl rfl ?_ rfl fun _ hsh => hsh
      rw [Rx.delivered, Rx.delivered, hmes, append_assoc]
      rfl

end

theorem Inv.step (action : Action Msg) : Inv crypto codec (step crypto codec readsMetadata peers st action) := by
  cases action with
  | setup incoming => exact h.setup incoming
  | kick incoming => exact h.kick incoming
  | write incoming msg => exact h.write incoming msg
  | send incoming => exact h.send incoming
  | deliver incoming len => exact h.deliver incoming len
  | read incoming => exact h.read incoming
  | pop incoming => exact h.pop incoming
  | close incoming => exact h.close incoming

omit h

theorem link_start (incoming : Bool) :
    Link crypto
      (authenticated crypto codec incoming (peers incoming) (peers !incoming) : End ChannelKey Nonce Msg Stream).tx
      (authenticated crypto codec (!incoming) (peers !incoming) (peers !!incoming)).rx [] := by
  rw [Bool.not_not]
  refine ⟨crypto.dh_comm _ _, fun _ hmem => absurd hmem not_mem_nil, rfl, ⟨[], rfl, ?_, rfl⟩, Nat.zero_le _⟩
  show (crypto.generateNonces (!incoming) _ _).2 = (crypto.generateNonces incoming _ _).1
  rw [recvMsg_sentMsg, recvMsg_sentMsg, generateNonces_swap]
  rfl

theorem inv_start : Inv crypto codec (start crypto codec peers) := by
  refine ⟨fun incoming => ⟨rfl, rfl, rfl⟩, fun incoming => ⟨link_start incoming, ?_, ?_⟩⟩
  · exact ⟨fun _ hmem => absurd hmem not_mem_nil, rfl⟩
  · refine ⟨codec.valid_empty, ?_, [], rfl, fun _ _ _ hfst => absurd hfst nofun⟩
    show [] = codec.contents codec.empty ++ []
    rw [codec.contents_empty]
    rfl

/-- What goes from a writer to a reader: a chunk is opened with the nonce it was boxed with, a header is the length of
    the box after it and fits its 16 bits, and the messages are popped as they were written. -/
structure InOrder (tx : Tx ChannelKey Nonce Msg) (rx : Rx ChannelKey Nonce Msg Stream) : Prop where
  nonces : rx.opened <+: tx.boxed
  headers : ∀ payload ∈ tx.payloads, ∃ boxed : MBytes,
    boxed.length < 2 ^ 16 ∧ payload = toBE headerLength boxed.length ++ boxed
  messages : rx.popped.map Prod.snd <+: tx.written

theorem Direction.inOrder (h : Direction crypto codec tx rx wire) : InOrder tx rx := by
  refine ⟨?_, fun payload hmem => ?_, ?_⟩
  · obtain ⟨chunks, hbox, -, -⟩ := h.link.stream
    exact ⟨chunks, hbox.symm⟩
  · rw [h.link.payloads] at hmem
    obtain ⟨chunk, hchn, rfl⟩ := mem_map.mp hmem
    exact ⟨sealed crypto tx.channelKey chunk, length_sealed_lt (h.link.size chunk hchn), rfl⟩
  · obtain ⟨rest, hwrt, -⟩ := h.reads.next
    rw [hwrt, Rx.delivered, map_append, append_assoc]
    exact prefix_append _ _

/-- In every run of two ends, whatever their chunk sizes, messages are delivered in order, both ways. -/
theorem inOrder_run {ι : Type → Type} (crypto : CryptoBox PublicKey SecretKey ChannelKey Nonce)
    (encoding : MessageEncoding ι Msg) (readsMetadata : MBytes → Bool) (peers : Bool → Peer SecretKey)
    (actions : List (Action Msg)) (incoming : Bool) :
    let st := run (step crypto encoding.codec readsMetadata peers) (start crypto encoding.codec peers) actions
    InOrder (st.ends incoming).tx (st.ends !incoming).rx :=
  ((inv_run (Inv crypto encoding.codec) inv_start (fun _ action h => h.step action) actions).direction incoming).inOrder

/-- Boxes that hide nothing. -/
def plainBox : CryptoBox Unit Unit Unit Nat where
  publicKey := id
  dh _ _ := ()
  generateNonce seeds := seeds.flatten.length
  incrementNonce := Nat.succ
  box _ _ msg := msg
  boxOpen _ _ msg := some msg
  dh_comm _ _ := rfl
  length_box _ _ _ := rfl
  boxOpen_box _ _ _ := rfl

def strings : MessageEncoding (fun _ => Empty) MBytes :=
  have wellFormed : Encoding.WellFormed Defs.none (.dynamicSize .uint8 (.atom (.string .variable))) :=
    ⟨trivial, trivial⟩
  .dynamicSize .none 0 .uint8 (.atom (.string .variable)) (fun _ => 0) (fun x => nomatch x) (fun x => nomatch x)
    wellFormed ⟨trivial, trivial⟩ ⟨trivial, trivial⟩ (fun _ => rfl) (fun _ => rfl)
    ⟨[], [0], (Writer.toBytes_eq_some wellFormed).mpr rfl⟩

def shortPeer : Peer Unit where
  secretKey := ()
  message := []
  length_message := by decide
  metadata := [7]
  binaryChunksSize := some ⟨20, rfl⟩

/-- Both ends exchange their metadata and acknowledge them, then one of them writes two bytes. -/
def shortRun : List (Action MBytes) :=
  let exchange : List (Action MBytes) := [.setup true, .setup false, .deliver true 19, .deliver false 19] ++
    replicate 5 (.read true) ++ replicate 5 (.read false)
  exchange ++ exchange ++ .write true [5, 6] :: replicate 3 (.send true) ++ [.deliver true 30, .deliver true 9] ++
    replicate 15 (.read false) ++ [.pop false]

/-- A message of three bytes goes through in two chunks of two bytes at most, whose frames are cut once more. -/
theorem inOrder_run_strings :
    let st := run (step plainBox strings.codec (fun _ => true) fun _ => shortPeer)
      (start plainBox strings.codec fun _ => shortPeer) shortRun
    (st.ends false).rx.popped = [(3, [5, 6])] ∧ InOrder (st.ends true).tx (st.ends !true).rx :=
  ⟨by decide +kernel, inOrder_run plainBox strings (fun _ => true) (fun _ => shortPeer) shortRun true⟩

end Tezos.P2pSocket
