import Tezos.P2p.Socket
import Tezos.Theorems.DataEncoding.RoundTrip
import Tezos.Theorems.DataEncoding.Stream.Refines

/-! The messages of a connection are read one after the other from one stream. An encoding that round-trips is read
    back from any cut of its bytes. -/

namespace Tezos.P2pSocket
open DataEncoding Lib Wire List

variable {ι : Type → Type} {Msg : Type}

/-- An encoding of messages that round-trips: what is written as a message is read as this message, whatever bytes come
    after it. Where messages follow each other in a stream, this needs that no message is written as no bytes, and that
    there are messages. -/
structure MessageEncoding (ι : Type → Type) (Msg : Type) where
  defs : Defs ι
  fuel : Nat
  encoding : Encoding ι Msg
  wellFormed : encoding.WellFormed defs
  kind : encoding.classify ≠ .variable
  limits : encoding.Everywhere LimitsChecked
  limits_defs : ∀ {β : Type} (x : ι β), (defs.unfold x).Everywhere LimitsChecked
  junk : Nat → UInt8
  read_toBytes : ∀ msg bytes rest, Writer.toBytes junk defs fuel encoding msg = .ok (some bytes) →
    Reader.read defs fuel encoding (bytes ++ rest) 0 (bytes ++ rest).length = .ok (some (bytes.length, msg))
  toBytes_ne_nil : ∀ msg, Writer.toBytes junk defs fuel encoding msg ≠ .ok (some [])
  exists_toBytes : ∃ msg bytes, Writer.toBytes junk defs fuel encoding msg = .ok (some bytes)

namespace MessageEncoding
open StreamReader

variable (enc : MessageEncoding ι Msg)

/-- `encode_message`, before the bytes are cut. -/
def toBytes (msg : Msg) : Option MBytes :=
  match Writer.toBytes enc.junk enc.defs enc.fuel enc.encoding msg with
  | .ok bytes => bytes
  | .error _ => none

/-- `read_stream ~init`, with the buffers given one by one to its continuations. -/
def readStream (init : BinaryStream) (buffers : List MBytes) : P2pSocket.Status Msg BinaryStream :=
  match (feed enc.defs buffers (StreamReader.readStream enc.defs enc.fuel init enc.encoding)).1 with
  | .success result size stream => .success result size stream
  | .awaitRec _ _ _ _ _ | .awaitSkip _ _ _ | .awaitZ _ _ _ _ _ => .await
  | .error _ | .raised _ => .error

variable {enc} {msg : Msg} {bytes rest : MBytes} {init : BinaryStream} {buffers : List MBytes}

theorem decode_toBytes (h : enc.toBytes msg = some bytes) (rest : MBytes) :
    decode enc.defs enc.fuel enc.encoding (bytes ++ rest) none = .ok (msg, bytes.length) := by
  refine Reader.read_eq_some.mp (enc.read_toBytes msg bytes rest ?_)
  unfold toBytes at h
  split at h
  · rename_i hbyt
    rw [hbyt, h]
  · cases h

theorem length_pos (h : enc.toBytes msg = some bytes) : 0 < bytes.length := by
  refine length_pos_iff.mpr fun hnil => ?_
  subst hnil
  unfold toBytes at h
  split at h
  · rename_i hbyt
    exact enc.toBytes_ne_nil msg (hbyt.trans (congrArg _ h))
  · cases h

theorem awaits_of_lt (h : enc.toBytes msg = some bytes) (hinit : init.Valid)
    (hpre : init.contents ++ buffers.flatten <+: bytes) (hlt : (init.contents ++ buffers.flatten).length < bytes.length) :
    (feed enc.defs buffers (StreamReader.readStream enc.defs enc.fuel init enc.encoding)).1.awaits = true := by
  obtain ⟨ext, hext⟩ := hpre
  have hout := outcome_readStream False enc.fuel (fun _ => enc.limits_defs) enc.wellFormed enc.kind
    (fun _ => enc.limits) ext hinit buffers
  have hdec := decode_toBytes h []
  rw [append_nil, ← hext] at hdec
  rcases hout with @⟨v, j, st', cs', hp, adv, -, -⟩ | ⟨hV, -⟩ | ⟨-, hp⟩ | ⟨-, -, y, hp, -⟩
  · rw [window_none rfl, data, hdec] at hp
    obtain ⟨-, rfl⟩ := Prod.mk.inj (Except.ok.inj hp)
    rw [hext] at adv
    exact absurd adv.le (Nat.not_le_of_lt hlt)
  · unfold verdict at hV
    revert hV
    cases (feed enc.defs buffers (StreamReader.readStream enc.defs enc.fuel init enc.encoding)).1 with
    | awaitRec | awaitSkip | awaitZ => exact fun _ => rfl
    | raised x =>
      intro hV
      cases x <;> cases hV
    | _ =>
      intro hV
      cases hV
  · rcases hp msg _ hdec with hneg | ⟨r, hwhl, -⟩
    · exact hneg.elim
    · cases hwhl
  · rw [window_none rfl, data, hdec] at hp
    cases hp

theorem feed_concat {D : Defs ι} {before : List MBytes} (last : MBytes) {status : StreamReader.Status ι Msg}
    (h : (feed D before status).1.awaits = true) : (feed D (before ++ [last]) status).2 = [] := by
  induction before generalizing status with
  | nil =>
    rw [nil_append, feed, if_pos (show status.awaits = true from h)]
    rfl
  | cons chunk before ih =>
    rw [cons_append, feed]
    rw [feed] at h
    split at h
    · rename_i hawt
      rw [if_pos hawt]
      exact ih h
    · rename_i hawt
      exact absurd h hawt

theorem readStream_of_awaits
    (h : (feed enc.defs buffers (StreamReader.readStream enc.defs enc.fuel init enc.encoding)).1.awaits = true) :
    enc.readStream init buffers = .await := by
  unfold readStream
  revert h
  cases (feed enc.defs buffers (StreamReader.readStream enc.defs enc.fuel init enc.encoding)).1 with
  | awaitRec | awaitSkip | awaitZ => exact fun _ => rfl
  | _ => exact nofun

theorem readStream_nil (hinit : init.Valid) (hnil : init.contents ++ buffers.flatten = []) :
    enc.readStream init buffers = .await := by
  obtain ⟨msg, bytes, hbyt⟩ := enc.exists_toBytes
  have hmsg : enc.toBytes msg = some bytes := by
    rw [toBytes, hbyt]
  refine readStream_of_awaits (awaits_of_lt hmsg hinit ?_ ?_)
  · rw [hnil]
    exact nil_prefix
  · rw [hnil]
    exact length_pos hmsg

/-- A run over the bytes of a message and others gives the message, and leaves the others in the stream. -/
theorem readStream_success (h : enc.toBytes msg = some bytes) (hinit : init.Valid)
    (hheld : init.contents ++ buffers.flatten = bytes ++ rest)
    (hlast : ∀ before last, buffers = before ++ [last] → (init.contents ++ before.flatten).length < bytes.length) :
    ∃ stream, enc.readStream init buffers = .success msg bytes.length stream ∧ stream.contents = rest ∧
      stream.Valid := by
  have hout := outcome_readStream False enc.fuel (fun _ => enc.limits_defs) enc.wellFormed enc.kind
    (fun _ => enc.limits) [] hinit buffers
  have hdec := decode_toBytes h rest
  rw [← hheld] at hdec
  have hwin : window [] { remainingBytes := none, allowedBytes := none, stream := init, totalRead := 0 } buffers =
      init.contents ++ buffers.flatten := by
    rw [window_none rfl, data, append_nil]
  rcases hout with @⟨v, j, st', cs', hp, adv, -, hV⟩ | ⟨-, hp⟩ | ⟨-, hp⟩ | ⟨-, -, y, hp, -⟩
  · rw [hwin, hdec] at hp
    obtain ⟨rfl, rfl⟩ := Prod.mk.inj (Except.ok.inj hp)
    rw [adv.total, zero_add, adv.drop, data, hheld, drop_left] at hV
    obtain ⟨stream, left, hfeed, hcont, hval⟩ := verdict_eq_success.mp hV
    have hleft : left = [] := by
      rcases eq_nil_or_concat' buffers with hnil | ⟨before, last, hconc⟩
      · rw [hnil] at hfeed
        exact (Prod.mk.inj hfeed).2.symm
      · have hlt := hlast before last hconc
        have hwhl : init.contents ++ before.flatten <+: bytes ++ rest := by
          rw [← hheld, hconc, flatten_append, ← append_assoc]
          exact prefix_append _ _
        have hbef := prefix_of_prefix_length_le hwhl (prefix_append bytes rest) (le_of_lt hlt)
        have htak := feed_concat last (awaits_of_lt h hinit hbef hlt)
        rw [← hconc, hfeed] at htak
        exact htak
    refine ⟨stream, ?_, ?_, hval ▸ adv.stream⟩
    · rw [readStream, hfeed]
    · rw [← hcont, hleft]
      exact (append_nil _).symm
  · rw [hwin] at hp
    have hlt := hp msg _ hdec
    rw [data, hheld, length_append] at hlt
    exact absurd (Nat.le_add_right _ _) (Nat.not_le_of_lt hlt)
  · rw [hwin] at hp
    rcases hp msg _ hdec with hneg | ⟨r, hwhl, -⟩
    · exact hneg.elim
    · cases hwhl
  · rw [hwin, hdec] at hp
    cases hp

def codec (enc : MessageEncoding ι Msg) : Codec Msg BinaryStream where
  toBytes := enc.toBytes
  empty := .empty
  contents := BinaryStream.contents
  Valid := BinaryStream.Valid
  readStream := enc.readStream
  valid_empty := BinaryStream.valid_ofBytes []
  contents_empty := BinaryStream.contents_ofBytes []
  readStream_nil _ _ hinit hnil := readStream_nil hinit hnil
  readStream_await _ _ _ _ hmsg hinit hpre hlt := readStream_of_awaits (awaits_of_lt hmsg hinit hpre hlt)
  readStream_success _ _ _ _ _ hmsg hinit hheld hlast := readStream_success hmsg hinit hheld hlast

theorem toBytes_dynamicSize_ne_nil {D : Defs ι} {kind : UnsignedInteger} {e : Encoding ι Msg}
    (he : (Encoding.dynamicSize kind e).WellFormed D) (junk : Nat → UInt8) (fuel : Nat) (msg : Msg) :
    Writer.toBytes junk D fuel (.dynamicSize kind e) msg ≠ .ok (some []) := by
  intro h
  have henc := (Writer.toBytes_eq_some he).mp h
  have hsize : 0 < BinarySize.integerToSize kind.toInteger := by
    cases kind <;> decide
  have hleng : ∀ {rec : {β : Type} → ι β → Option Int → β → Except Exn MBytes} {a : Option Int},
      encodeDesc rec (.dynamicSize kind e) a msg ≠ .ok [] := by
    intro rec a hnil
    simp only [encodeDesc, bind_eq_ok, pure_eq_ok, Except.ok.injEq] at hnil
    obtain ⟨_, -, w, -, hw⟩ := hnil
    have hlen := congrArg List.length hw
    rw [length_append, length_intBytes] at hlen
    exact absurd hlen (Nat.ne_of_gt (Nat.add_pos_left hsize _))
  rcases fuel with _ | fuel
  · exact hleng henc
  · exact hleng henc

/-- Messages after their size, as in `P2p_message.encoding`. -/
def dynamicSize (defs : Defs ι) (fuel : Nat) (kind : UnsignedInteger) (e : Encoding ι Msg) (junk : Nat → UInt8)
    (lawful_defs : ∀ {β : Type} (x : ι β), (defs.unfold x).Everywhere (Lawful defs))
    (limits_defs : ∀ {β : Type} (x : ι β), (defs.unfold x).Everywhere LimitsChecked)
    (wellFormed : (Encoding.dynamicSize kind e).WellFormed defs)
    (lawful : (Encoding.dynamicSize kind e).Everywhere (Lawful defs))
    (limits : (Encoding.dynamicSize kind e).Everywhere LimitsChecked)
    (strip_eq : ∀ msg, strip defs fuel (.dynamicSize kind e) msg = msg)
    (stuck_eq : ∀ msg, stuck defs fuel (.dynamicSize kind e) false msg = false)
    (exists_toBytes : ∃ msg bytes, Writer.toBytes junk defs fuel (.dynamicSize kind e) msg = .ok (some bytes)) :
    MessageEncoding ι Msg where
  defs := defs
  fuel := fuel
  encoding := .dynamicSize kind e
  wellFormed := wellFormed
  kind := nofun
  limits := limits
  limits_defs := limits_defs
  junk := junk
  read_toBytes msg _ rest h :=
    read_toBytes_append lawful_defs wellFormed lawful nofun (strip_eq msg) (stuck_eq msg) h rest
  toBytes_ne_nil := toBytes_dynamicSize_ne_nil wellFormed junk fuel
  exists_toBytes := exists_toBytes

end MessageEncoding

end Tezos.P2pSocket
