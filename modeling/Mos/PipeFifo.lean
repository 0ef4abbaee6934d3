import Mos.Lib.Run
import Mos.Pipe
/-!
# PipeFifo — the pipe is a queue

`PipeData` ties the two positions, the ring and the places of the two processes to what went in and came out; it holds
after any number of bytes, and whatever `_pipe_is_closed` answers.  That no byte is skipped after a short `write` is
what needs the answer to be right: then the reader has gone.
-/
namespace Mos

/-- What is in the buffer of the `read` in progress. -/
def RPc.rbuf : RPc → List Byte
  | .rpos _ rbuf | .wpos _ rbuf _ | .check _ rbuf _ | .yield _ rbuf | .index _ rbuf | .byte _ rbuf _ | .load _ rbuf
  | .store _ rbuf _ => rbuf
  | _ => []

/-- What is left of the `write` in progress. -/
def WPc.rest : WPc → List Byte
  | .wpos wbuf i | .rpos wbuf i _ | .check wbuf i | .yield wbuf i | .index wbuf i | .byte wbuf i _ | .load wbuf i
  | .store wbuf i _ => wbuf.drop i
  | _ => []

namespace PipeSt

/-! ## The positions as words -/

theorem lt_of_not_ge {r w : Nat} (hr : r < 2 ^ 32) (h : ¬BitVec.ofNat 32 r ≥ BitVec.ofNat 32 w) :
    r < w ∧ r + 1 < 2 ^ 32 := by
  rw [ge_iff_le, BitVec.le_def, BitVec.toNat_ofNat, BitVec.toNat_ofNat] at h
  omega

theorem room_of_not_ge {r w : Nat} (hle : r ≤ w) (hfull : w ≤ r + pipeSize)
    (h : ¬BitVec.ofNat 32 w - BitVec.ofNat 32 r ≥ BitVec.ofNat 32 pipeSize) : w < r + pipeSize := by
  rw [ge_iff_le, BitVec.le_def, BitVec.toNat_sub, BitVec.toNat_ofNat, BitVec.toNat_ofNat, BitVec.toNat_ofNat] at h
  unfold pipeSize at h hfull ⊢
  omega

theorem slot_ofNat (w : Nat) : (BitVec.ofNat 32 w).toNat % pipeSize = w % pipeSize := by
  rw [BitVec.toNat_ofNat]
  unfold pipeSize
  omega

/-! ## The places of the two processes -/

/-- In `pipe_read` with `rbuf` stored and `r` bytes released. -/
def Reading (s : PipeSt) (r : Nat) (n : Word) (rbuf : List Byte) : Prop :=
  s.returned ++ rbuf = s.put.take r ∧ rbuf.length < n.toNat

/-- A byte is stored and not released. -/
def Taken (s : PipeSt) (r : Nat) (n : Word) (rbuf : List Byte) : Prop :=
  s.returned ++ rbuf = s.put.take (r + 1) ∧ rbuf.length ≤ n.toNat ∧ r < s.put.length ∧ r + 1 < 2 ^ 32 ∧ rbuf ≠ []

/-- What the reader's place says, when it has released `r` bytes. -/
def ReaderAt (s : PipeSt) (r : Nat) : Prop :=
  match s.rd with
  | .idle | .unmapData _ | .fdClose _ => s.returned = s.put.take r
  | .rpos n rbuf | .yield n rbuf => s.Reading r n rbuf
  | .wpos n rbuf r' => s.Reading r n rbuf ∧ r' = s.pipe.rpos
  | .check n rbuf w => s.Reading r n rbuf ∧ s.pipe.rpos ≥ w ∧ ∃ w₀ ≤ s.put.length, r ≤ w₀ ∧ w = BitVec.ofNat 32 w₀
  | .index n rbuf => s.Reading r n rbuf ∧ r < s.put.length ∧ r + 1 < 2 ^ 32
  | .byte n rbuf r' => s.Reading r n rbuf ∧ r < s.put.length ∧ r + 1 < 2 ^ 32 ∧ r' = s.pipe.rpos
  | .load n rbuf => s.Taken r n rbuf
  | .store n rbuf r' => s.Taken r n rbuf ∧ r' = s.pipe.rpos

/-- What the writer's place says, when `r` bytes are released. -/
def WriterAt (s : PipeSt) (r : Nat) : Prop :=
  match s.wr with
  | .wpos wbuf i | .yield wbuf i | .check wbuf i => i < wbuf.length
  | .rpos wbuf i w => i < wbuf.length ∧ w = s.pipe.wpos
  | .index wbuf i => i < wbuf.length ∧ s.put.length < r + pipeSize
  | .byte wbuf i w => i < wbuf.length ∧ s.put.length < r + pipeSize ∧ w = s.pipe.wpos
  | .load wbuf i => s.put.length < r + pipeSize ∧ wbuf[i]? = some (s.pipe.buf (s.put.length % pipeSize))
  | .store wbuf i w =>
    s.put.length < r + pipeSize ∧ wbuf[i]? = some (s.pipe.buf (s.put.length % pipeSize)) ∧ w = s.pipe.wpos
  | _ => True

/-- **The positions, the ring and the processes agree** with what was put, of which `r` bytes are released. -/
structure PipeData (s : PipeSt) (r : Nat) : Prop where
  lt : r < 2 ^ 32
  rpos : s.pipe.rpos = BitVec.ofNat 32 r
  wpos : s.pipe.wpos = BitVec.ofNat 32 s.put.length
  le : r ≤ s.put.length
  full : s.put.length ≤ r + pipeSize
  ring : Ringed pipeSize s.pipe.buf r s.put
  reader : s.ReaderAt r
  writer : s.WriterAt r

namespace PipeData

variable {s s' : PipeSt} {r : Nat}

/-! ### The reader -/

theorem readReturn (h : s.PipeData r) {n : Word} {rbuf : List Byte} (hb : s.returned ++ rbuf = s.put.take r) :
    (s.readReturn n rbuf).PipeData r :=
  ⟨h.lt, h.rpos, h.wpos, h.le, h.full, h.ring, hb, h.writer⟩

theorem readLoop {n : Word} {rbuf : List Byte} (h : (s.readReturn n rbuf).PipeData r) (hn : rbuf.length ≤ n.toNat) :
    (s.readLoop n rbuf).PipeData r := by
  unfold PipeSt.readLoop
  split
  · rename_i hlt
    rw [BitVec.lt_def, count, BitVec.toNat_ofNat] at hlt
    have := n.isLt
    exact ⟨h.lt, h.rpos, h.wpos, h.le, h.full, h.ring, ⟨h.reader, by omega⟩, h.writer⟩
  · exact h

theorem writerAt_succ (h : s.WriterAt r) : s.WriterAt (r + 1) := by
  unfold WriterAt at h ⊢
  split <;> simp_all only [and_true, true_and] <;> omega

/-- **`p_rpos++` releases a byte.** -/
theorem release (h : s.PipeData r) {n : Word} {rbuf : List Byte} (ht : s.Taken r n rbuf) :
    ({ s with pipe := { s.pipe with rpos := s.pipe.rpos + 1 } }.readReturn n rbuf).PipeData (r + 1) := by
  obtain ⟨hb, -, hr, hlt, -⟩ := ht
  have hfull := h.full
  refine ⟨hlt, ?_, h.wpos, hr, ?_, h.ring.pop, hb, writerAt_succ h.writer⟩
  · show s.pipe.rpos + 1 = _
    rw [h.rpos, BitVec.ofNat_add]
    rfl
  · show s.put.length ≤ r + 1 + pipeSize
    omega

/-- **A step of the reader** keeps the data. -/
theorem readStep (h : s.PipeData r) (hs : s.readStep = some s') : ∃ r', s'.PipeData r' := by
  have hat := h.reader
  unfold ReaderAt at hat
  unfold PipeSt.readStep at hs
  split at hs
  · cases hs
  · rename_i n rbuf hpc
    rw [hpc] at hat
    cases hs
    exact ⟨r, h.lt, h.rpos, h.wpos, h.le, h.full, h.ring, ⟨hat, rfl⟩, h.writer⟩
  · rename_i n rbuf r' hpc
    rw [hpc] at hat
    obtain ⟨hread, rfl⟩ := hat
    split at hs
    · rename_i hge
      split at hs
      · cases hs
        exact ⟨r, h.readReturn hread.1⟩
      · cases hs
        exact ⟨r, h.lt, h.rpos, h.wpos, h.le, h.full, h.ring, ⟨hread, hge, _, Nat.le_refl _, h.le, h.wpos⟩, h.writer⟩
    · rename_i hlt
      cases hs
      rw [h.rpos, h.wpos] at hlt
      exact ⟨r, h.lt, h.rpos, h.wpos, h.le, h.full, h.ring, ⟨hread, lt_of_not_ge h.lt hlt⟩, h.writer⟩
  · cases hs
  · rename_i n rbuf hpc
    rw [hpc] at hat
    cases hs
    exact ⟨r, h.lt, h.rpos, h.wpos, h.le, h.full, h.ring, hat, h.writer⟩
  · rename_i n rbuf hpc
    rw [hpc] at hat
    cases hs
    exact ⟨r, h.lt, h.rpos, h.wpos, h.le, h.full, h.ring, ⟨hat.1, hat.2.1, hat.2.2, rfl⟩, h.writer⟩
  · rename_i n rbuf r' hpc
    rw [hpc] at hat
    obtain ⟨hread, hlt, hword, rfl⟩ := hat
    cases hs
    refine ⟨r, h.lt, h.rpos, h.wpos, h.le, h.full, h.ring, ⟨?_, ?_, hlt, hword, by simp⟩, h.writer⟩
    · rw [h.rpos, slot_ofNat, ← List.append_assoc, hread.1]
      exact h.ring.get hlt
    · rw [List.length_append, List.length_singleton]
      exact hread.2
  · rename_i n rbuf hpc
    rw [hpc] at hat
    cases hs
    exact ⟨r, h.lt, h.rpos, h.wpos, h.le, h.full, h.ring, ⟨hat, rfl⟩, h.writer⟩
  · rename_i n rbuf r' hpc
    rw [hpc] at hat
    obtain ⟨htaken, rfl⟩ := hat
    cases hs
    exact ⟨r + 1, readLoop (h.release htaken) htaken.2.1⟩
  · rename_i e hpc
    rw [hpc] at hat
    cases hs
    exact ⟨r, h.lt, h.rpos, h.wpos, h.le, h.full, h.ring, hat, h.writer⟩
  · rename_i e hpc
    rw [hpc] at hat
    cases hs
    exact ⟨r, h.lt, h.rpos, h.wpos, h.le, h.full, h.ring, hat, h.writer⟩

theorem readAnswer (h : s.PipeData r) {n : Word} {rbuf : List Byte} {w : Word} (hpc : s.rd = .check n rbuf w)
    (closed : Bool) :
    (s.readAnswer n rbuf closed).PipeData r := by
  have hat := h.reader
  unfold ReaderAt at hat
  rw [hpc] at hat
  unfold PipeSt.readAnswer
  split
  · exact h.readReturn hat.1.1
  · exact ⟨h.lt, h.rpos, h.wpos, h.le, h.full, h.ring, hat.1, h.writer⟩

/-! ### The writer -/

theorem readerAt_put (h : s.PipeData r) (xs : List Byte) (buf : Nat → Byte) (wpos : Word) (wr : WPc) :
    ({ s with pipe := { s.pipe with wpos := wpos, buf := buf }, put := s.put ++ xs, wr := wr } :
      PipeSt).ReaderAt r := by
  have hat := h.reader
  have htake : ∀ j, j ≤ s.put.length → (s.put ++ xs).take j = s.put.take j :=
    fun j hj => List.take_append_of_le_length hj
  have hle := h.le
  unfold ReaderAt at hat ⊢
  dsimp only
  split <;> rename_i hpc <;> rw [hpc] at hat <;> simp only [Reading, Taken, htake r hle, List.length_append] at hat ⊢
  · exact hat
  · exact hat
  · exact hat
  · exact hat
  · exact hat
  · exact hat
  · obtain ⟨hread, hge, w₀, hw₀, hr, hw⟩ := hat
    exact ⟨hread, hge, w₀, by omega, hr, hw⟩
  · exact ⟨hat.1, by omega, hat.2.2⟩
  · exact ⟨hat.1, by omega, hat.2.2⟩
  · rw [htake (r + 1) hat.2.2.1]
    exact ⟨hat.1, hat.2.1, by omega, hat.2.2.2⟩
  · rw [htake (r + 1) hat.1.2.2.1]
    exact ⟨⟨hat.1.1, hat.1.2.1, by omega, hat.1.2.2.2⟩, hat.2⟩

theorem writeLoop (h : ({ s with wr := .idle } : PipeSt).PipeData r) (wbuf : List Byte) (i : Nat) :
    (s.writeLoop wbuf i).PipeData r := by
  unfold PipeSt.writeLoop
  split
  · rename_i hi
    exact ⟨h.lt, h.rpos, h.wpos, h.le, h.full, h.ring, h.reader, hi⟩
  · exact h

/-- **`p_wpos++` publishes the byte** that was written. -/
theorem publish (h : s.PipeData r) {b : Byte} (hroom : s.put.length < r + pipeSize)
    (hb : s.pipe.buf (s.put.length % pipeSize) = b) :
    ({ s with pipe := { s.pipe with wpos := s.pipe.wpos + 1 }, put := s.put ++ [b], wr := .idle } :
      PipeSt).PipeData r := by
  have hle := h.le
  refine ⟨h.lt, h.rpos, ?_, ?_, ?_, h.ring.push hb, h.readerAt_put [b] s.pipe.buf _ _, trivial⟩
  · show s.pipe.wpos + 1 = _
    rw [h.wpos, List.length_append, BitVec.ofNat_add]
    rfl
  · show r ≤ (s.put ++ [b]).length
    rw [List.length_append]
    omega
  · show (s.put ++ [b]).length ≤ r + pipeSize
    rw [List.length_append, List.length_singleton]
    omega

/-- **A step of the writer** keeps the data. -/
theorem writeStep (h : s.PipeData r) (hs : s.writeStep = some s') : s'.PipeData r := by
  have hat := h.writer
  unfold WriterAt at hat
  unfold PipeSt.writeStep at hs
  split at hs
  · cases hs
  · rename_i wbuf i hpc
    rw [hpc] at hat
    cases hs
    exact ⟨h.lt, h.rpos, h.wpos, h.le, h.full, h.ring, h.reader, ⟨hat, rfl⟩⟩
  · rename_i wbuf i w hpc
    rw [hpc] at hat
    obtain ⟨hi, rfl⟩ := hat
    split at hs
    · cases hs
      exact ⟨h.lt, h.rpos, h.wpos, h.le, h.full, h.ring, h.reader, hi⟩
    · rename_i hroom
      cases hs
      rw [h.rpos, h.wpos] at hroom
      exact ⟨h.lt, h.rpos, h.wpos, h.le, h.full, h.ring, h.reader, ⟨hi, room_of_not_ge h.le h.full hroom⟩⟩
  · cases hs
  · rename_i wbuf i hpc
    rw [hpc] at hat
    cases hs
    exact ⟨h.lt, h.rpos, h.wpos, h.le, h.full, h.ring, h.reader, hat⟩
  · rename_i wbuf i hpc
    rw [hpc] at hat
    cases hs
    exact ⟨h.lt, h.rpos, h.wpos, h.le, h.full, h.ring, h.reader, ⟨hat.1, hat.2, rfl⟩⟩
  · rename_i wbuf i w hpc
    rw [hpc] at hat
    obtain ⟨hi, hroom, rfl⟩ := hat
    obtain ⟨b, hb, rfl⟩ := Option.map_eq_some_iff.1 hs
    rw [h.wpos, slot_ofNat]
    have hreader := h.readerAt_put [] (Function.update s.pipe.buf (s.put.length % pipeSize) b)
        s.pipe.wpos (.load wbuf i)
    rw [List.append_nil] at hreader
    refine ⟨h.lt, h.rpos, h.wpos, h.le, h.full, h.ring.write b hroom, hreader, ⟨hroom, ?_⟩⟩
    dsimp only
    rw [Function.update_self, hb]
  · rename_i wbuf i hpc
    rw [hpc] at hat
    cases hs
    exact ⟨h.lt, h.rpos, h.wpos, h.le, h.full, h.ring, h.reader, ⟨hat.1, hat.2, rfl⟩⟩
  · rename_i wbuf i w hpc
    rw [hpc] at hat
    obtain ⟨hroom, hb, rfl⟩ := hat
    cases hs
    rw [hb]
    exact writeLoop (h.publish hroom rfl) wbuf (i + 1)
  · cases hs
    exact ⟨h.lt, h.rpos, h.wpos, h.le, h.full, h.ring, h.reader, trivial⟩
  · cases hs
    exact ⟨h.lt, h.rpos, h.wpos, h.le, h.full, h.ring, h.reader, trivial⟩

theorem writeAnswer (h : s.PipeData r) {wbuf : List Byte} {i : Nat} (hpc : s.wr = .check wbuf i) (closed : Bool) :
    (s.writeAnswer wbuf i closed).PipeData r := by
  have hat := h.writer
  unfold WriterAt at hat
  rw [hpc] at hat
  unfold PipeSt.writeAnswer
  split
  · exact ⟨h.lt, h.rpos, h.wpos, h.le, h.full, h.ring, h.reader, trivial⟩
  · exact ⟨h.lt, h.rpos, h.wpos, h.le, h.full, h.ring, h.reader, hat⟩

/-! ### Calls -/

theorem call {c : Call} (h : s.PipeData r) (hs : s.call c = some s') : s'.PipeData r := by
  have hrd := h.reader
  unfold ReaderAt at hrd
  cases c with
  | read n =>
    simp only [PipeSt.call] at hs
    split at hs
    · rename_i hpc
      rw [hpc] at hrd
      split at hs
      · cases hs
        exact readLoop (h.readReturn (by rw [List.append_nil]; exact hrd)) (Nat.zero_le _)
      · cases hs
    · cases hs
  | write wbuf =>
    simp only [PipeSt.call] at hs
    split at hs
    · rename_i hpc
      split at hs
      · cases hs
        have hidle : ({ s with passed := s.passed ++ wbuf, wr := .idle } : PipeSt).PipeData r :=
          ⟨h.lt, h.rpos, h.wpos, h.le, h.full, h.ring, h.reader, trivial⟩
        exact writeLoop hidle wbuf 0
      · cases hs
    · cases hs
  | close p e =>
    cases p with
    | reader =>
      simp only [PipeSt.call] at hs
      split at hs
      · rename_i hpc
        rw [hpc] at hrd
        split at hs
        · cases hs
          exact ⟨h.lt, h.rpos, h.wpos, h.le, h.full, h.ring, hrd, h.writer⟩
        · cases hs
      · cases hs
    | writer =>
      simp only [PipeSt.call] at hs
      split at hs
      · split at hs
        · cases hs
          exact ⟨h.lt, h.rpos, h.wpos, h.le, h.full, h.ring, h.reader, trivial⟩
        · cases hs
      · cases hs

theorem fresh (h : s.Fresh) : s.PipeData 0 := by
  obtain ⟨hr, hw, -, hrd, hwr, -, hput, hret, -⟩ := h
  refine ⟨by decide, hr, ?_, Nat.zero_le _, ?_, ?_, ?_, ?_⟩
  · rw [hw, hput]
    rfl
  · rw [hput]
    exact Nat.zero_le _
  · rw [hput]
    exact Ringed.nil
  · unfold ReaderAt
    rw [hrd]
    simp [hret]
  · unfold WriterAt
    rw [hwr]
    trivial

end PipeData

/-! ## The descriptors -/

/-- In `pipe_read` the reader has its descriptor, in `close` it has unmapped it. -/
def ReaderEnds (m : PipeMaps) : RPc → Prop
  | .idle => True
  | .unmapData e | .fdClose e => m.fd .reader e = false
  | _ => m.fd .reader .rd = true

/-- In `pipe_write` the writer has its descriptor, in `close` it has unmapped it. -/
def WriterEnds (m : PipeMaps) : WPc → Prop
  | .idle => True
  | .unmapData e | .fdClose e => m.fd .writer e = false
  | _ => m.fd .writer .wr = true

/-- **The page of the pipe is mapped behind every descriptor**, and the processes have what they use. -/
structure Ends (s : PipeSt) : Prop where
  data : ∀ p e, s.maps.fd p e = true → s.maps.data p e = true
  reader : ReaderEnds s.maps s.rd
  writer : WriterEnds s.maps s.wr

/-- **A right answer**: when the pipe counts as closed, nobody has the other end. -/
theorem not_other_of_closed {m : PipeMaps} (hdata : ∀ p e, m.fd p e = true → m.data p e = true) {p : Who} {e : End}
    (hfd : m.fd p e = true) (hc : m.pipeIsClosed p e = true) (q : Who) : m.fd q e.other = false := by
  have hle : ∀ p e, (m.fd p e).toNat ≤ (m.data p e).toNat := by
    intro p e
    cases h : m.fd p e with
    | false => exact Nat.zero_le _
    | true => simp [hdata p e h]
  have hrr := hle .reader .rd
  have hrw := hle .reader .wr
  have hwr := hle .writer .rd
  have hww := hle .writer .wr
  have heq : m.fdRef p e = m.pipeRef p e := by simpa [PipeMaps.pipeIsClosed] using hc
  simp only [PipeMaps.fdRef, PipeMaps.pipeRef, hfd, hdata p e hfd, if_true] at heq
  have hzero : (m.fd q e.other).toNat = 0 := by
    cases e <;> cases q <;> simp only [End.other] <;> omega
  simpa using hzero

namespace Ends

variable {s s' : PipeSt}

theorem setFd_fd (m : PipeMaps) (p : Who) (e : End) (b : Bool) (q : Who) (e' : End) :
    (m.setFd p e b).fd q e' = if q = p ∧ e' = e then b else m.fd q e' := rfl

theorem data_setFd {m : PipeMaps} (h : ∀ p e, m.fd p e = true → m.data p e = true) (p : Who) (e : End) :
    ∀ q e', (m.setFd p e false).fd q e' = true → (m.setFd p e false).data q e' = true := by
  intro q e' hfd
  rw [setFd_fd] at hfd
  split at hfd
  · cases hfd
  · exact h q e' hfd

theorem data_setData {m : PipeMaps} (h : ∀ p e, m.fd p e = true → m.data p e = true) {p : Who} {e : End}
    (hfd : m.fd p e = false) :
    ∀ q e', (m.setData p e false).fd q e' = true → (m.setData p e false).data q e' = true := by
  intro q e' hq
  show (if q = p ∧ e' = e then false else m.data q e') = true
  rw [if_neg]
  · exact h q e' hq
  · rintro ⟨rfl, rfl⟩
    rw [show m.fd q e' = true from hq] at hfd
    cases hfd

theorem readerEnds_congr {m m' : PipeMaps} (hm : ∀ e, m'.fd .reader e = m.fd .reader e) {rd : RPc}
    (h : ReaderEnds m rd) : ReaderEnds m' rd := by
  cases rd <;> simp only [ReaderEnds, hm] at h ⊢ <;> exact h

theorem writerEnds_congr {m m' : PipeMaps} (hm : ∀ e, m'.fd .writer e = m.fd .writer e) {wr : WPc}
    (h : WriterEnds m wr) : WriterEnds m' wr := by
  cases wr <;> simp only [WriterEnds, hm] at h ⊢ <;> exact h

theorem setFd_self (m : PipeMaps) (p : Who) (e : End) : (m.setFd p e false).fd p e = false := by
  simp [setFd_fd]

theorem reader_setFd (h : s.Ends) (e : End) {rd : RPc} (hrd : ReaderEnds (s.maps.setFd .reader e false) rd) :
    ({ s with maps := s.maps.setFd .reader e false, rd := rd } : PipeSt).Ends :=
  ⟨data_setFd h.data .reader e, hrd, writerEnds_congr (fun e' => by simp [setFd_fd]) h.writer⟩

theorem writer_setFd (h : s.Ends) (e : End) {wr : WPc} (hwr : WriterEnds (s.maps.setFd .writer e false) wr) :
    ({ s with maps := s.maps.setFd .writer e false, wr := wr } : PipeSt).Ends :=
  ⟨data_setFd h.data .writer e, readerEnds_congr (fun e' => by simp [setFd_fd]) h.reader, hwr⟩

theorem readLoop (h : s.Ends) {n : Word} {rbuf : List Byte} (hfd : s.maps.fd .reader .rd = true) :
    (s.readLoop n rbuf).Ends := by
  unfold PipeSt.readLoop
  split
  · exact ⟨h.data, hfd, h.writer⟩
  · exact ⟨h.data, trivial, h.writer⟩

theorem readStep (h : s.Ends) (hs : s.readStep = some s') : s'.Ends := by
  have hat := h.reader
  unfold PipeSt.readStep at hs
  split at hs <;> rename_i hpc <;> rw [hpc] at hat
  · cases hs
  · cases hs
    exact ⟨h.data, hat, h.writer⟩
  · split at hs
    · split at hs
      · cases hs
        exact ⟨h.data, trivial, h.writer⟩
      · cases hs
        exact ⟨h.data, hat, h.writer⟩
    · cases hs
      exact ⟨h.data, hat, h.writer⟩
  · cases hs
  · cases hs
    exact ⟨h.data, hat, h.writer⟩
  · cases hs
    exact ⟨h.data, hat, h.writer⟩
  · cases hs
    exact ⟨h.data, hat, h.writer⟩
  · cases hs
    exact ⟨h.data, hat, h.writer⟩
  · rename_i n rbuf r
    cases hs
    have hends : ({ s with pipe := { s.pipe with rpos := r + 1 } } : PipeSt).Ends := ⟨h.data, h.reader, h.writer⟩
    exact hends.readLoop hat
  · cases hs
    exact ⟨data_setData h.data hat, hat, h.writer⟩
  · rename_i e
    cases hs
    exact h.reader_setFd e trivial

theorem readAnswer (h : s.Ends) {n : Word} {rbuf : List Byte} {w : Word} (hpc : s.rd = .check n rbuf w)
    (closed : Bool) :
    (s.readAnswer n rbuf closed).Ends := by
  have hat := h.reader
  rw [hpc] at hat
  unfold PipeSt.readAnswer
  split
  · exact ⟨h.data, trivial, h.writer⟩
  · exact ⟨h.data, hat, h.writer⟩

theorem writeLoop (h : s.Ends) (wbuf : List Byte) (i : Nat) (hfd : s.maps.fd .writer .wr = true) :
    (s.writeLoop wbuf i).Ends := by
  unfold PipeSt.writeLoop
  split
  · exact ⟨h.data, h.reader, hfd⟩
  · exact ⟨h.data, h.reader, trivial⟩

theorem writeStep (h : s.Ends) (hs : s.writeStep = some s') : s'.Ends := by
  have hat := h.writer
  unfold PipeSt.writeStep at hs
  split at hs <;> rename_i hpc <;> rw [hpc] at hat
  · cases hs
  · cases hs
    exact ⟨h.data, h.reader, hat⟩
  · split at hs
    · cases hs
      exact ⟨h.data, h.reader, hat⟩
    · cases hs
      exact ⟨h.data, h.reader, hat⟩
  · cases hs
  · cases hs
    exact ⟨h.data, h.reader, hat⟩
  · cases hs
    exact ⟨h.data, h.reader, hat⟩
  · obtain ⟨b, -, rfl⟩ := Option.map_eq_some_iff.1 hs
    exact ⟨h.data, h.reader, hat⟩
  · cases hs
    exact ⟨h.data, h.reader, hat⟩
  · rename_i wbuf i w
    cases hs
    have hends : ({ s with pipe := { s.pipe with wpos := w + 1 }, put := s.put ++ wbuf[i]?.toList } : PipeSt).Ends :=
      ⟨h.data, h.reader, h.writer⟩
    exact hends.writeLoop wbuf (i + 1) hat
  · cases hs
    exact ⟨data_setData h.data hat, h.reader, hat⟩
  · rename_i e
    cases hs
    exact h.writer_setFd e trivial

theorem writeAnswer (h : s.Ends) {wbuf : List Byte} {i : Nat} (hpc : s.wr = .check wbuf i) (closed : Bool) :
    (s.writeAnswer wbuf i closed).Ends := by
  have hat := h.writer
  rw [hpc] at hat
  unfold PipeSt.writeAnswer
  split
  · exact ⟨h.data, h.reader, trivial⟩
  · exact ⟨h.data, h.reader, hat⟩

theorem call {c : Call} (h : s.Ends) (hs : s.call c = some s') : s'.Ends := by
  cases c with
  | read n =>
    simp only [PipeSt.call] at hs
    split at hs
    · split at hs
      · rename_i hfd
        cases hs
        exact h.readLoop hfd
      · cases hs
    · cases hs
  | write wbuf =>
    simp only [PipeSt.call] at hs
    split at hs
    · split at hs
      · rename_i hfd
        cases hs
        have hends : ({ s with passed := s.passed ++ wbuf } : PipeSt).Ends := ⟨h.data, h.reader, h.writer⟩
        exact hends.writeLoop wbuf 0 hfd.1
      · cases hs
    · cases hs
  | close p e =>
    cases p with
    | reader =>
      simp only [PipeSt.call] at hs
      split at hs
      · split at hs
        · cases hs
          exact h.reader_setFd e (setFd_self _ _ _)
        · cases hs
      · cases hs
    | writer =>
      simp only [PipeSt.call] at hs
      split at hs
      · split at hs
        · cases hs
          exact h.writer_setFd e (setFd_self _ _ _)
        · cases hs
      · cases hs

theorem fresh (h : s.Fresh) : s.Ends := by
  obtain ⟨-, -, hmaps, hrd, hwr, -⟩ := h
  refine ⟨fun p e hfd => by rw [hmaps]; exact hfd, ?_, ?_⟩
  · rw [hrd]
    trivial
  · rw [hwr]
    trivial

end Ends

/-! ## What was passed and what was put -/

theorem got_put {s : PipeSt} {r : Nat} (h : s.PipeData r) : s.returned ++ s.rd.rbuf <+: s.put := by
  have hat := h.reader
  unfold ReaderAt at hat
  have htake : ∀ j xs, xs = s.put.take j → xs <+: s.put := fun j xs hx => hx ▸ List.take_prefix j s.put
  split at hat <;> rename_i hpc <;> rw [hpc] <;> simp only [RPc.rbuf, List.append_nil]
  · exact htake _ _ hat
  · exact htake _ _ hat
  · exact htake _ _ hat
  · exact htake _ _ hat.1
  · exact htake _ _ hat.1
  · exact htake _ _ hat.1.1
  · exact htake _ _ hat.1.1
  · exact htake _ _ hat.1.1
  · exact htake _ _ hat.1.1
  · exact htake _ _ hat.1
  · exact htake _ _ hat.1.1

/-- **Nothing is skipped**: what was passed is what was put and what is left of the call; or the reader has given its
end up, and got a first part of it. -/
structure Ordered (s : PipeSt) : Prop where
  length : s.put.length + s.wr.rest.length ≤ s.passed.length
  order : s.passed = s.put ++ s.wr.rest ∨ s.maps.fd .reader .rd = false ∧ s.returned <+: s.passed

/-- All that holds of the pipe between two steps. -/
structure PipeInv (s : PipeSt) : Prop where
  data : ∃ r, s.PipeData r
  ends : s.Ends
  ordered : s.Ordered

namespace Ordered

variable {s s' : PipeSt}

theorem reader (h : s.Ordered) (hput : s'.put = s.put) (hpassed : s'.passed = s.passed) (hwr : s'.wr = s.wr)
    (hret : s.maps.fd .reader .rd = false → s'.returned = s.returned ∧ s'.maps.fd .reader .rd = false) :
    s'.Ordered := by
  refine ⟨by rw [hput, hwr, hpassed]; exact h.length, ?_⟩
  rcases h.order with ho | ⟨hfd, hp⟩
  · exact .inl (by rw [hput, hwr, hpassed]; exact ho)
  · obtain ⟨hr, hfd'⟩ := hret hfd
    exact .inr ⟨hfd', by rw [hr, hpassed]; exact hp⟩

theorem writer (h : s.Ordered) (hpassed : s'.passed = s.passed) (hret : s'.returned = s.returned)
    (hfd : s'.maps.fd .reader .rd = s.maps.fd .reader .rd) (hmove : s'.put ++ s'.wr.rest = s.put ++ s.wr.rest) :
    s'.Ordered := by
  have hlen := congrArg List.length hmove
  rw [List.length_append, List.length_append] at hlen
  refine ⟨by rw [hlen, hpassed]; exact h.length, ?_⟩
  rcases h.order with ho | hc
  · exact .inl (by rw [hmove, hpassed]; exact ho)
  · exact .inr (by rw [hfd, hret, hpassed]; exact hc)

end Ordered

theorem rest_writeLoop (s : PipeSt) (wbuf : List Byte) (i : Nat) : (s.writeLoop wbuf i).wr.rest = wbuf.drop i := by
  unfold writeLoop
  split
  · rfl
  · rename_i hi
    exact (List.drop_eq_nil_of_le (Nat.not_lt.1 hi)).symm

theorem writeLoop_eq (s : PipeSt) (wbuf : List Byte) (i : Nat) :
    s.writeLoop wbuf i = { s with wr := (s.writeLoop wbuf i).wr } := by
  unfold writeLoop
  split <;> rfl

namespace PipeInv

variable {s s' : PipeSt}

theorem readLoop_ordered (h : s.Ordered) {n : Word} {rbuf : List Byte} (hfd : s.maps.fd .reader .rd = true) :
    (s.readLoop n rbuf).Ordered := by
  have hno : s.maps.fd .reader .rd = false → (s.readLoop n rbuf).returned = s.returned ∧
      (s.readLoop n rbuf).maps.fd .reader .rd = false := fun hf => by rw [hfd] at hf; cases hf
  refine h.reader ?_ ?_ ?_ hno <;> unfold readLoop readReturn <;> split <;> rfl

theorem readStep (h : s.PipeInv) (hs : s.readStep = some s') : s'.PipeInv := by
  obtain ⟨r, hdata⟩ := h.data
  refine ⟨hdata.readStep hs, h.ends.readStep hs, ?_⟩
  have hat := h.ends.reader
  have hno : s.maps.fd .reader .rd = true → s.maps.fd .reader .rd = false → s'.returned = s.returned ∧
      s'.maps.fd .reader .rd = false := fun ht hf => by rw [ht] at hf; cases hf
  unfold PipeSt.readStep at hs
  split at hs <;> rename_i hpc <;> rw [hpc] at hat
  · cases hs
  · cases hs
    exact h.ordered.reader rfl rfl rfl (hno hat)
  · split at hs
    · split at hs
      · cases hs
        exact h.ordered.reader rfl rfl rfl (hno hat)
      · cases hs
        exact h.ordered.reader rfl rfl rfl (hno hat)
    · cases hs
      exact h.ordered.reader rfl rfl rfl (hno hat)
  · cases hs
  · cases hs
    exact h.ordered.reader rfl rfl rfl (hno hat)
  · cases hs
    exact h.ordered.reader rfl rfl rfl (hno hat)
  · cases hs
    exact h.ordered.reader rfl rfl rfl (hno hat)
  · cases hs
    exact h.ordered.reader rfl rfl rfl (hno hat)
  · rename_i n rbuf r
    cases hs
    have hord : ({ s with pipe := { s.pipe with rpos := r + 1 } } : PipeSt).Ordered :=
      ⟨h.ordered.length, h.ordered.order⟩
    exact readLoop_ordered hord hat
  · cases hs
    exact h.ordered.reader rfl rfl rfl (fun hf => ⟨rfl, hf⟩)
  · rename_i e
    cases hs
    refine h.ordered.reader rfl rfl rfl (fun hf => ⟨rfl, ?_⟩)
    rw [Ends.setFd_fd, hf]
    exact ite_self false

theorem readAnswer (h : s.PipeInv) {n : Word} {rbuf : List Byte} {w : Word} (hpc : s.rd = .check n rbuf w)
    (closed : Bool) :
    (s.readAnswer n rbuf closed).PipeInv := by
  obtain ⟨r, hdata⟩ := h.data
  refine ⟨⟨r, hdata.readAnswer hpc closed⟩, h.ends.readAnswer hpc closed, ?_⟩
  have hat := h.ends.reader
  rw [hpc] at hat
  unfold PipeSt.readAnswer readReturn
  split <;> exact h.ordered.reader rfl rfl rfl
    (fun hf => by rw [show s.maps.fd .reader .rd = true from hat] at hf; cases hf)

theorem writeStep (h : s.PipeInv) (hs : s.writeStep = some s') : s'.PipeInv := by
  obtain ⟨r, hdata⟩ := h.data
  refine ⟨⟨r, hdata.writeStep hs⟩, h.ends.writeStep hs, ?_⟩
  have hat := hdata.writer
  unfold WriterAt at hat
  unfold PipeSt.writeStep at hs
  split at hs <;> rename_i hpc <;> rw [hpc] at hat
  · cases hs
  · cases hs
    exact h.ordered.writer rfl rfl rfl (by rw [hpc]; rfl)
  · split at hs
    · cases hs
      exact h.ordered.writer rfl rfl rfl (by rw [hpc]; rfl)
    · cases hs
      exact h.ordered.writer rfl rfl rfl (by rw [hpc]; rfl)
  · cases hs
  · cases hs
    exact h.ordered.writer rfl rfl rfl (by rw [hpc]; rfl)
  · cases hs
    exact h.ordered.writer rfl rfl rfl (by rw [hpc]; rfl)
  · obtain ⟨b, -, rfl⟩ := Option.map_eq_some_iff.1 hs
    exact h.ordered.writer rfl rfl rfl (by rw [hpc]; rfl)
  · cases hs
    exact h.ordered.writer rfl rfl rfl (by rw [hpc]; rfl)
  · rename_i wbuf i w
    cases hs
    -- the byte leaves the rest of the call and enters what was put
    have hmove : wbuf[i]?.toList ++ wbuf.drop (i + 1) = wbuf.drop i := by
      obtain ⟨hi, -⟩ := List.getElem?_eq_some_iff.1 hat.2.1
      rw [List.getElem?_eq_getElem hi, List.drop_eq_getElem_cons hi]
      rfl
    rw [writeLoop_eq]
    refine h.ordered.writer rfl rfl rfl ?_
    rw [rest_writeLoop, hpc, List.append_assoc, hmove]
    rfl
  · cases hs
    exact h.ordered.writer rfl rfl rfl (by rw [hpc]; rfl)
  · rename_i e
    cases hs
    exact h.ordered.writer rfl rfl (by simp [Ends.setFd_fd]) (by rw [hpc]; rfl)

/-- **A short `write`** skips nothing the reader could get. -/
theorem writeAnswer (h : s.PipeInv) {wbuf : List Byte} {i : Nat} (hpc : s.wr = .check wbuf i) {closed : Bool}
    (hc : closed = true → s.maps.pipeIsClosed .writer .wr = true) : (s.writeAnswer wbuf i closed).PipeInv := by
  obtain ⟨r, hdata⟩ := h.data
  refine ⟨⟨r, hdata.writeAnswer hpc closed⟩, h.ends.writeAnswer hpc closed, ?_⟩
  have hat := h.ends.writer
  rw [hpc] at hat
  have hlen := h.ordered.length
  unfold PipeSt.writeAnswer
  split
  · rename_i hclosed
    refine ⟨Nat.le_trans (Nat.le_add_right _ _) hlen,
      .inr ⟨not_other_of_closed h.ends.data hat (hc hclosed) .reader, ?_⟩⟩
    rcases h.ordered.order with ho | ho
    · show s.returned <+: s.passed
      rw [ho]
      exact ((List.prefix_append _ _).trans (got_put hdata)).trans (List.prefix_append _ _)
    · exact ho.2
  · exact h.ordered.writer rfl rfl rfl (by rw [hpc]; rfl)

theorem call {c : Call} (h : s.PipeInv) (hs : s.call c = some s') : s'.PipeInv := by
  obtain ⟨r, hdata⟩ := h.data
  refine ⟨⟨r, hdata.call hs⟩, h.ends.call hs, ?_⟩
  cases c with
  | read n =>
    simp only [PipeSt.call] at hs
    split at hs
    · split at hs
      · rename_i hfd
        cases hs
        exact readLoop_ordered h.ordered hfd
      · cases hs
    · cases hs
  | write wbuf =>
    simp only [PipeSt.call] at hs
    split at hs
    · rename_i hpc
      split at hs
      · cases hs
        have hlen := h.ordered.length
        have hord := h.ordered.order
        rw [hpc] at hlen hord
        simp only [WPc.rest, List.length_nil, List.append_nil, Nat.add_zero] at hlen hord
        rw [writeLoop_eq]
        refine ⟨?_, ?_⟩
        · rw [rest_writeLoop, List.drop_zero, List.length_append]
          exact Nat.add_le_add_right hlen _
        · rw [rest_writeLoop, List.drop_zero]
          rcases hord with ho | ⟨hfd, hp⟩
          · exact .inl (congrArg (· ++ wbuf) ho)
          · exact .inr ⟨hfd, hp.trans (List.prefix_append _ _)⟩
      · cases hs
    · cases hs
  | close p e =>
    cases p with
    | reader =>
      simp only [PipeSt.call] at hs
      split at hs
      · split at hs
        · cases hs
          refine h.ordered.reader rfl rfl rfl (fun hf => ⟨rfl, ?_⟩)
          rw [Ends.setFd_fd, hf]
          exact ite_self false
        · cases hs
      · cases hs
    | writer =>
      simp only [PipeSt.call] at hs
      split at hs
      · rename_i hpc
        split at hs
        · cases hs
          exact h.ordered.writer rfl rfl (by simp [Ends.setFd_fd]) (by rw [hpc]; rfl)
        · cases hs
      · cases hs

theorem fresh (h : s.Fresh) : s.PipeInv := by
  refine ⟨⟨0, PipeData.fresh h⟩, Ends.fresh h, ?_⟩
  obtain ⟨-, -, -, -, hwr, hpassed, hput, -⟩ := h
  refine ⟨?_, .inl ?_⟩ <;> simp [hwr, hpassed, hput, WPc.rest]

/-- **Every step keeps the pipe as it is.** -/
theorem step {a : PipeAct} (h : s.PipeInv) (hs : s.step a = some s') : s'.PipeInv := by
  cases a with
  | call c => exact h.call hs
  | run p =>
    cases p with
    | reader =>
      simp only [PipeSt.step] at hs
      split at hs
      · rename_i n rbuf w hpc
        cases hs
        exact h.readAnswer hpc _
      · exact h.readStep hs
    | writer =>
      simp only [PipeSt.step] at hs
      split at hs
      · rename_i wbuf i hpc
        cases hs
        exact h.writeAnswer hpc (fun hc => hc)
      · exact h.writeStep hs

end PipeInv

/-! ## Runs -/

/-- The `write` calls of the run pass fewer than `2 ^ 32` bytes. -/
def Total (s : PipeSt) : PipeAct → Prop
  | .call (.write wbuf) => s.passed.length + wbuf.length < 2 ^ 32
  | _ => True

theorem readLoop_passed (s : PipeSt) (n : Word) (rbuf : List Byte) : (s.readLoop n rbuf).passed = s.passed := by
  unfold readLoop readReturn
  split <;> rfl

theorem readStep_passed {s s' : PipeSt} (hs : s.readStep = some s') : s'.passed = s.passed := by
  unfold readStep at hs
  split at hs
  case h_3 =>
    split at hs
    · split at hs <;> cases hs <;> rfl
    · cases hs; rfl
  case h_9 => cases hs; exact readLoop_passed _ _ _
  all_goals cases hs <;> rfl

theorem writeStep_passed {s s' : PipeSt} (hs : s.writeStep = some s') : s'.passed = s.passed := by
  unfold writeStep at hs
  split at hs
  case h_3 => split at hs <;> cases hs <;> rfl
  case h_7 =>
    obtain ⟨b, -, rfl⟩ := Option.map_eq_some_iff.1 hs
    rfl
  case h_9 =>
    cases hs
    rw [writeLoop_eq]
  all_goals cases hs <;> rfl

theorem step_passed {s s' : PipeSt} {a : PipeAct} (hs : s.step a = some s') (htotal : s.Total a)
    (hlt : s.passed.length < 2 ^ 32) : s'.passed.length < 2 ^ 32 := by
  cases a with
  | run p =>
    cases p with
    | reader =>
      simp only [step] at hs
      split at hs
      · cases hs
        unfold readAnswer readReturn
        split <;> exact hlt
      · rw [readStep_passed hs]
        exact hlt
    | writer =>
      simp only [step] at hs
      split at hs
      · cases hs
        unfold writeAnswer
        split <;> exact hlt
      · rw [writeStep_passed hs]
        exact hlt
  | call c =>
    cases c with
    | read n =>
      simp only [step, call] at hs
      split at hs
      · split at hs
        · cases hs
          rw [readLoop_passed]
          exact hlt
        · cases hs
      · cases hs
    | write wbuf =>
      simp only [step, call] at hs
      split at hs
      · split at hs
        · cases hs
          rw [writeLoop_eq, List.length_append]
          exact htotal
        · cases hs
      · cases hs
    | close p e =>
      cases p <;> simp only [step, call] at hs <;> split at hs
      · split at hs
        · cases hs; exact hlt
        · cases hs
      · cases hs
      · split at hs
        · cases hs; exact hlt
        · cases hs
      · cases hs

/-- The positions and the bytes are those of a queue of `PIPE_SIZE` bytes. -/
structure Fifo (s : PipeSt) : Prop where
  le : s.pipe.rpos ≤ s.pipe.wpos
  size : (s.pipe.wpos - s.pipe.rpos).toNat ≤ pipeSize
  returned : s.returned = s.passed.take s.returned.length
  rbuf : s.returned ++ s.rd.rbuf = s.passed.take (s.returned ++ s.rd.rbuf).length

theorem fifo_of_inv {s : PipeSt} (h : s.PipeInv) (htotal : s.passed.length < 2 ^ 32) : s.Fifo := by
  obtain ⟨r, hdata⟩ := h.data
  have hle := hdata.le
  have hfull := hdata.full
  have hlen := h.ordered.length
  have hgot : s.returned ++ s.rd.rbuf <+: s.passed := by
    rcases h.ordered.order with ho | ⟨hfd, hp⟩
    · rw [ho]
      exact (got_put hdata).trans (List.prefix_append _ _)
    · have hidle : s.rd.rbuf = [] := by
        have hat := h.ends.reader
        unfold ReaderEnds at hat
        split at hat
        · rename_i hpc; rw [hpc]; rfl
        · rename_i hpc; rw [hpc]; rfl
        · rename_i hpc; rw [hpc]; rfl
        · rw [hfd] at hat; cases hat
      rw [hidle, List.append_nil]
      exact hp
  refine ⟨?_, ?_, List.prefix_iff_eq_take.1 ((List.prefix_append _ _).trans hgot), List.prefix_iff_eq_take.1 hgot⟩
  · rw [hdata.rpos, hdata.wpos, BitVec.le_def, BitVec.toNat_ofNat, BitVec.toNat_ofNat]
    omega
  · rw [hdata.rpos, hdata.wpos, BitVec.toNat_sub, BitVec.toNat_ofNat, BitVec.toNat_ofNat]
    omega

/-- **The pipe is a queue**: after every interleaving of the steps of a reader and a writer whose `write` calls pass
fewer than `2 ^ 32` bytes. -/
theorem pipe_fifo (s : PipeSt) (h : Run Fresh step Total s) : s.Fifo := by
  have hinv := Run.invariant (fun s => s.PipeInv ∧ s.passed.length < 2 ^ 32)
    (fun s hs => ⟨PipeInv.fresh hs, by rw [hs.2.2.2.2.2.1]; decide⟩) ?_ s h
  · exact fifo_of_inv hinv.1 hinv.2
  · rintro s a s' ⟨hi, hlt⟩ htotal hs
    exact ⟨hi.step hs, step_passed hs htotal hlt⟩

/-- A check that decides `Total`. -/
def totalB (s : PipeSt) : PipeAct → Bool
  | .call (.write wbuf) => decide (s.passed.length + wbuf.length < 2 ^ 32)
  | _ => true

theorem total_of_totalB (s : PipeSt) (a : PipeAct) (h : s.totalB a = true) : s.Total a := by
  cases a with
  | call c =>
    cases c with
    | write wbuf =>
      have hlt : s.passed.length + wbuf.length < 2 ^ 32 := of_decide_eq_true h
      exact hlt
    | _ => trivial
  | run p => trivial

/-- A new pipe; the reader has the one end, the writer the other. -/
def new : PipeSt :=
  let ends : Who → End → Bool := fun p e => decide (p = .reader ∧ e = .rd ∨ p = .writer ∧ e = .wr)
  { pipe := { rpos := 0, wpos := 0, buf := fun _ => 0 }, maps := { fd := ends, data := ends }, rd := .idle, wr := .idle
    passed := [], put := [], returned := [], eof := false }

theorem fresh_new (s : PipeSt) (h : some new = some s) : s.Fresh := by
  cases h
  exact ⟨rfl, rfl, rfl, rfl, rfl, rfl, rfl, rfl, rfl⟩

/-- Two bytes go through the pipe, the writer being ahead of the reader by one. -/
theorem pipe_fifo_new : ∃ s : PipeSt, s.returned = [7, 8] ∧ s.Fifo := by
  obtain ⟨s, hr, hs⟩ := @Run.exists_of_exec PipeSt PipeAct Fresh step Total totalB total_of_totalB
    (.call (.write [7, 8]) :: .call (.read 2) :: List.replicate 6 (.run .writer) ++
      (List.replicate 12 [.run .writer, .run .reader]).flatten.drop 12 ++ List.replicate 6 (.run .reader))
    (some new) fresh_new (fun s => decide (s.returned = [7, 8])) (by decide +kernel)
  exact ⟨s, of_decide_eq_true hs, pipe_fifo s hr⟩

end PipeSt

end Mos
