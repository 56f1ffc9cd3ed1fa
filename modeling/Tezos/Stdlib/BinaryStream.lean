import Tezos.DataEncoding.MBytes

/-! Streams of binary data (`lib_stdlib/binary_stream.ml`): the chunks that were pushed, and how far they were
    read. -/

namespace Tezos
open DataEncoding

structure BinaryStream.Buffer where
  buffer : MBytes
  ofs : Nat
  len : Nat

/-- A stream: the chunk that is being read, those after it (a queue as two lists), and the number of bytes in
    all of them that are not read. -/
structure BinaryStream where
  current : BinaryStream.Buffer
  pending : List MBytes
  pendingRev : List MBytes
  unread : Nat

namespace BinaryStream

def ofBuffer (current : Buffer) : BinaryStream := { current, pending := [], pendingRev := [], unread := current.len }

def ofBytes (buffer : MBytes) : BinaryStream := ofBuffer { buffer, ofs := 0, len := buffer.length }

def empty : BinaryStream := ofBytes []

def push (buffer : MBytes) (stream : BinaryStream) : BinaryStream :=
  { stream with pendingRev := buffer :: stream.pendingRev, unread := stream.unread + buffer.length }

def split (buffer : Buffer) (len : Nat) : Except Exn (Buffer × Buffer) :=
  if len ≤ buffer.len then
    .ok ({ buffer with len }, { buffer with ofs := buffer.ofs + len, len := buffer.len - len })
  else .error .assertFailure

/-- The loop of `read` over a list of chunks. `res` holds the bytes copied so far, the first `ofs` of the
    `len` to read; `rest` is `pending_rev`, and `next` goes on when the list is exhausted. -/
def loop (len unread : Nat) (rest : List MBytes) (next : MBytes → Except Exn (Buffer × BinaryStream)) :
    MBytes → List MBytes → Except Exn (Buffer × BinaryStream)
  | res, [] => next res
  | res, buffer :: pending =>
    let toRead := len - res.length
    if toRead ≤ buffer.length then do
      let copied ← MBytes.sub buffer 0 toRead
      pure ({ buffer := res ++ copied, ofs := 0, len },
        { current := { buffer, ofs := toRead, len := buffer.length - toRead }, pending, pendingRev := rest,
          unread := unread - len })
    else loop len unread rest next (res ++ buffer) pending

/-- `read stream len`; `none` is the exception `Need_more_data`. The chunks of `pending` come first, then
    those of `pending_rev` in the order in which they were pushed; a stream with less than its `unread` bytes
    would be searched for ever. -/
def read (stream : BinaryStream) (len : Nat) : Except Exn (Option (Buffer × BinaryStream)) :=
  if len > stream.unread then .ok none
  else if len ≤ stream.current.len then do
    let (res, current) ← split stream.current len
    pure (some (res, { stream with current, unread := stream.unread - len }))
  else do
    let res ← MBytes.sub stream.current.buffer stream.current.ofs stream.current.len
    let last := loop len stream.unread [] fun _ => .error .diverges
    let r ← loop len stream.unread stream.pendingRev (fun res => last res stream.pendingRev.reverse) res stream.pending
    pure (some r)

end BinaryStream
end Tezos
