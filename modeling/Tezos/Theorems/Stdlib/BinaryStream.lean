import Tezos.Stdlib.BinaryStream

/-! A stream is the list of its unread bytes. -/

namespace Tezos.BinaryStream
open DataEncoding Lib List

def Buffer.contents (b : Buffer) : MBytes := (b.buffer.drop b.ofs).take b.len

def Buffer.Valid (b : Buffer) : Prop := b.ofs + b.len ≤ b.buffer.length

def contents (s : BinaryStream) : MBytes := s.current.contents ++ s.pending.flatten ++ s.pendingRev.reverse.flatten

/-- The current chunk is where its fields say, and the unread bytes are counted. -/
structure Valid (s : BinaryStream) : Prop where
  current : s.current.Valid
  unread : s.unread = s.contents.length

variable {b : Buffer} {s : BinaryStream} {len : Nat} {pending rest : List MBytes}

theorem Buffer.Valid.length (h : b.Valid) : b.contents.length = b.len := by
  unfold Buffer.Valid at h
  rw [Buffer.contents, length_take, length_drop]
  omega

theorem Buffer.Valid.sub (h : b.Valid) : MBytes.sub b.buffer b.ofs b.len = .ok b.contents := if_pos h

theorem contents_ofBuffer (b : Buffer) : (ofBuffer b).contents = b.contents := by
  simp [ofBuffer, contents]

theorem Buffer.Valid.ofBuffer (h : b.Valid) : (ofBuffer b).Valid := ⟨h, by rw [contents_ofBuffer, h.length]; rfl⟩

theorem contents_ofBytes (b : MBytes) : (ofBytes b).contents = b := by
  simp [ofBytes, ofBuffer, contents, Buffer.contents]

theorem valid_ofBytes (b : MBytes) : (ofBytes b).Valid :=
  Buffer.Valid.ofBuffer (by simp [Buffer.Valid])

theorem contents_push (c : MBytes) (s : BinaryStream) : (push c s).contents = s.contents ++ c := by
  simp [push, contents, append_assoc]

theorem Valid.push (h : s.Valid) (c : MBytes) : (push c s).Valid := by
  refine ⟨h.current, ?_⟩
  rw [contents_push, length_append, ← h.unread]
  rfl

/-- What `read` gives: the first `len` bytes, and a stream with the others. -/
def Splits (s : BinaryStream) (len : Nat) (r : Buffer × BinaryStream) : Prop :=
  r.1.Valid ∧ r.1.len = len ∧ r.1.contents = s.contents.take len ∧ r.2.Valid ∧ r.2.contents = s.contents.drop len

theorem loop_spec {unread : Nat} {next : MBytes → Except Exn (Buffer × BinaryStream)}
    {P : Buffer × BinaryStream → Prop}
    (all : MBytes) (hnext : ∀ res, res.length < len → all = res ++ rest.reverse.flatten → ∃ r, next res = .ok r ∧
      P r)
    (hP : ∀ res buffer pending, res.length < len → len - res.length ≤ buffer.length →
      all = res ++ (buffer :: pending).flatten ++ rest.reverse.flatten →
        P ({ buffer := res ++ buffer.take (len - res.length), ofs := 0, len },
          { current := { buffer, ofs := len - res.length, len := buffer.length - (len - res.length) }, pending,
            pendingRev := rest, unread := unread - len })) :
    ∀ {res : MBytes}, res.length < len → all = res ++ pending.flatten ++ rest.reverse.flatten →
      ∃ r, loop len unread rest next res pending = .ok r ∧ P r := by
  induction pending with
  | nil =>
    intro res hres hall
    exact hnext res hres (by simpa using hall)
  | cons buffer pending ih =>
    intro res hres hall
    simp only [loop]
    by_cases hread : len - res.length ≤ buffer.length
    · have hsub : MBytes.sub buffer 0 (len - res.length) = .ok (buffer.take (len - res.length)) := by
        rw [MBytes.sub, if_pos (by omega), drop_zero]
      rw [if_pos hread, hsub]
      exact ⟨_, rfl, hP res buffer pending hres hread hall⟩
    · rw [if_neg hread]
      refine ih ?_ ?_
      · rw [length_append]
        omega
      · rw [hall, flatten_cons, append_assoc res buffer]

theorem splits_chunk (h : s.Valid) {res buffer : MBytes} (hres : res.length ≤ len)
    (hread : len - res.length ≤ buffer.length)
    (hall : s.contents = res ++ (buffer :: pending).flatten ++ rest.reverse.flatten) :
    Splits s len ({ buffer := res ++ buffer.take (len - res.length), ofs := 0, len },
      { current := { buffer, ofs := len - res.length, len := buffer.length - (len - res.length) }, pending,
        pendingRev := rest, unread := s.unread - len }) := by
  have hcop : (res ++ buffer.take (len - res.length)).length = len := by
    rw [length_append, length_take]
    omega
  have hlat : ({ buffer, ofs := len - res.length, len := buffer.length - (len - res.length) } : Buffer).contents =
      buffer.drop (len - res.length) := by
    rw [Buffer.contents, take_of_length_le (by rw [length_drop])]
  have htake : s.contents.take len = res ++ buffer.take (len - res.length) := by
    rw [hall, flatten_cons, append_assoc, append_assoc, take_append, take_of_length_le hres,
      take_append_of_le_length hread]
  have hdrop : s.contents.drop len = buffer.drop (len - res.length) ++ pending.flatten ++ rest.reverse.flatten := by
    rw [hall, flatten_cons, append_assoc, append_assoc, drop_append, drop_eq_nil_of_le hres,
      nil_append, drop_append_of_le_length hread, append_assoc]
  refine ⟨?_, rfl, ?_, ⟨?_, ?_⟩, ?_⟩
  · simp [Buffer.Valid, hcop]
  · rw [htake, Buffer.contents, drop_zero, take_of_length_le hcop.le]
  · simp only [Buffer.Valid]
    omega
  · rw [contents, hlat, ← hdrop, length_drop, h.unread]
  · rw [contents, hlat, ← hdrop]

theorem splits_current (h : s.Valid) (hle : len ≤ s.current.len) : Splits s len ({ s.current with len },
      { s with current := { s.current with ofs := s.current.ofs + len, len := s.current.len - len },
               unread := s.unread - len }) := by
  have hcur := h.current
  have hcurl := hcur.length
  unfold Buffer.Valid at hcur
  have hfst : ({ s.current with len } : Buffer).contents = s.current.contents.take len := by
    rw [Buffer.contents, Buffer.contents, take_take, min_eq_left hle]
  have hlat : ({ s.current with ofs := s.current.ofs + len, len := s.current.len - len } : Buffer).contents =
      s.current.contents.drop len := by
    rw [Buffer.contents, Buffer.contents, drop_take, drop_drop]
  have hdrop : s.contents.drop len = s.current.contents.drop len ++ s.pending.flatten ++ s.pendingRev.reverse.flatten := by
    rw [contents, append_assoc, drop_append_of_le_length (by omega), append_assoc]
  refine ⟨?_, rfl, ?_, ⟨?_, ?_⟩, ?_⟩
  · simp only [Buffer.Valid]
    omega
  · rw [hfst, contents, append_assoc, take_append_of_le_length (by omega)]
  · simp only [Buffer.Valid]
    omega
  · rw [contents, hlat, ← hdrop, length_drop, h.unread]
  · rw [contents, hlat, ← hdrop]

theorem read_of_le (h : s.Valid) (hlen : len ≤ s.contents.length) :
    ∃ r, read s len = .ok (some r) ∧ Splits s len r := by
  unfold read
  rw [if_neg (by rw [h.unread]; omega)]
  by_cases hle : len ≤ s.current.len
  · rw [if_pos hle, split, if_pos hle]
    exact ⟨_, rfl, splits_current h hle⟩
  · have hcur : s.current.contents.length < len := by
      rw [h.current.length]
      omega
    -- the second list, `pending_rev` in the order of the pushes, holds the last byte to read
    have hlast : ∀ res, res.length < len → s.contents = res ++ s.pendingRev.reverse.flatten →
        ∃ r, loop len s.unread [] (fun _ => .error .diverges) res s.pendingRev.reverse = .ok r ∧ Splits s len r := by
      intro res hres hall
      refine loop_spec s.contents (fun res' hres' hall' => ?_)
        (fun res' buffer pending hres' hread hall' => splits_chunk h hres'.le hread hall') hres (by simpa using hall)
      have hsh : res' = s.contents := by simpa using hall'.symm
      rw [hsh] at hres'
      omega
    obtain ⟨r, hr, hspl⟩ := loop_spec s.contents hlast
      (fun res' buffer pending hres' hread hall' => splits_chunk h hres'.le hread hall') hcur rfl
    rw [if_neg hle, h.current.sub]
    simp only [hr, ok_bind]
    exact ⟨r, rfl, hspl⟩

theorem read_of_lt (h : s.Valid) (hlen : s.contents.length < len) : read s len = .ok none :=
  if_pos (by rw [h.unread]; exact hlen)

/-- The streams that `empty`, `of_bytes` and `of_buffer` (of a slice of a buffer), `push` and `read` build. -/
inductive Reachable : BinaryStream → Prop
  | empty : Reachable empty
  | ofBytes (b : MBytes) : Reachable (ofBytes b)
  | ofBuffer {b : Buffer} (h : b.Valid) : Reachable (ofBuffer b)
  | push {s : BinaryStream} (c : MBytes) (h : Reachable s) : Reachable (push c s)
  | read {s s' : BinaryStream} {len : Nat} {b : Buffer} (h : Reachable s) (hread : read s len = .ok (some (b, s'))) :
    Reachable s'

theorem Reachable.valid (h : Reachable s) : s.Valid := by
  induction h with
  | empty => exact valid_ofBytes []
  | ofBytes b => exact valid_ofBytes b
  | ofBuffer h => exact h.ofBuffer
  | push c _ ih => exact ih.push c
  | @read s s' len b _ hread ih =>
    by_cases hlen : len ≤ s.contents.length
    · obtain ⟨r, hr, -, -, -, hval, -⟩ := read_of_le ih hlen
      cases hr.symm.trans hread
      exact hval
    · cases (read_of_lt ih (Nat.lt_of_not_le hlen)).symm.trans hread

/-- A stream is a queue of bytes. -/
structure IsQueue (s : BinaryStream) : Prop where
  unread : s.unread = s.contents.length
  pushes : ∀ c, (push c s).contents = s.contents ++ c
  reads : ∀ len ≤ s.unread, ∃ b s', read s len = .ok (some (b, s')) ∧ b.contents = s.contents.take len ∧
    b.len = len ∧ s'.contents = s.contents.drop len
  needMoreData : ∀ len, s.unread < len → read s len = .ok none

theorem isQueue_of_reachable (h : Reachable s) : IsQueue s := by
  have hval := h.valid
  refine ⟨hval.unread, fun c => contents_push c s, fun len hlen => ?_, fun len hlen => ?_⟩
  · rw [hval.unread] at hlen
    obtain ⟨⟨b, s'⟩, hread, -, hlen, hfst, -, hrest⟩ := read_of_le hval hlen
    exact ⟨b, s', hread, hfst, hlen, hrest⟩
  · rw [hval.unread] at hlen
    exact read_of_lt hval hlen

theorem isQueue_of_pushed : IsQueue (BinaryStream.push [2, 3] (BinaryStream.push [] (BinaryStream.ofBytes [1]))) :=
  isQueue_of_reachable (.push _ (.push _ (.ofBytes _)))

end Tezos.BinaryStream
