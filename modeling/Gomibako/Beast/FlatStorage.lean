import Gomibako.Beast.Read
import Gomibako.Lib.Machine
import Gomibako.Lib.Region
import Mathlib.Data.List.Infix

/-!
# The storage of the read buffer

`flat_static_buffer_base` with its storage and the pointers into it. `prepare` moves what is to be
read to the front if the space behind it is too small, and `consume` goes back to the front when
nothing is left, where the pointer to the end of the output sequence stays. Used as a queue
(`Queue`), the buffer is one (`FlatStorage.queue_of_run`); what is written and not committed before
all was consumed is lost (`FlatStorage.commit_of_consume`).
-/

namespace Gomibako.Beast

/-- `flat_static_buffer_base` with `N` octets: the positions of `in_`, `out_` and `last_`.
Reference: `flat_static_buffer_base` (`flat_static_buffer.hpp:39`). -/
structure FlatStorage (N : Nat) where
  storage : Str
  inPos : Nat
  outPos : Nat
  lastPos : Nat
  length_eq : storage.length = N
  in_le : inPos ≤ outPos
  out_le : outPos ≤ lastPos
  last_le : lastPos ≤ N
deriving DecidableEq

namespace FlatStorage

variable {N : Nat}

/-- `data`: the input sequence, from `in_` to `out_`, which is what is to be read. Reference:
`flat_static_buffer_base::data` (`flat_static_buffer.ipp:32`). -/
def data (s : FlatStorage N) : Str := region s.storage s.inPos s.outPos

/-- `size`: how much is to be read. Reference: `flat_static_buffer_base::size`
(`flat_static_buffer.hpp:78`). -/
def size (s : FlatStorage N) : Nat := s.outPos - s.inPos

/-- What is in the output sequence, from `out_` to `last_`; the caller of `prepare` writes to it. -/
def space (s : FlatStorage N) : Str := region s.storage s.outPos s.lastPos

/-- `reset(p, n)`: the buffer takes over a storage, with nothing to be read. Reference:
`flat_static_buffer_base::reset` (`flat_static_buffer.ipp:58`). -/
def construct (storage : Str) : FlatStorage storage.length where
  storage
  inPos := 0
  outPos := 0
  lastPos := 0
  length_eq := rfl
  in_le := Nat.le_refl 0
  out_le := Nat.le_refl 0
  last_le := Nat.zero_le _

/-- `reset`: both sequences become empty at the start of the storage, whose contents stay.
Reference: `flat_static_buffer_base::reset` (`flat_static_buffer.ipp:41`). -/
def reset (s : FlatStorage N) : FlatStorage N where
  storage := s.storage
  inPos := 0
  outPos := 0
  lastPos := 0
  length_eq := s.length_eq
  in_le := Nat.le_refl 0
  out_le := Nat.le_refl 0
  last_le := Nat.zero_le _

/-- The input sequence has as many octets as `size` tells. -/
theorem length_data (s : FlatStorage N) : s.data.length = s.size :=
  length_region (s.length_eq.symm ▸ Nat.le_trans s.out_le s.last_le)

/-- What is to be read fits the storage. -/
theorem size_le (s : FlatStorage N) : s.size ≤ N :=
  Nat.le_trans (Nat.sub_le _ _) (Nat.le_trans s.out_le s.last_le)

/-- The output sequence has as many octets as its two positions are apart. -/
theorem length_space (s : FlatStorage N) : s.space.length = s.lastPos - s.outPos :=
  length_region (s.length_eq.symm ▸ s.last_le)

/-- What is moved to the front is as long as it was. -/
theorem length_moveFront (s : FlatStorage N) :
    (moveRegion s.storage 0 s.inPos s.size).length = N := by
  have hle : s.inPos + s.size ≤ s.storage.length := by
    have := s.out_le
    have := s.last_le
    have := s.in_le
    rw [s.length_eq, size]
    omega
  rw [moveRegion, length_overwrite, s.length_eq]
  rw [length_region hle]
  omega

/-- `prepare`: the buffer with an output sequence of `n` octets. Where the space behind the input is
too small, the input is moved to the front. Reference: `flat_static_buffer_base::prepare_impl`
(`flat_static_buffer.ipp:89`). -/
def prepare (s : FlatStorage N) (n : Nat) : Except StdException (FlatStorage N) :=
  if h : n ≤ N - s.outPos then
    .ok { s with
      lastPos := s.outPos + n
      out_le := Nat.le_add_right _ _
      last_le := by
        have := s.out_le
        have := s.last_le
        omega }
  else
    if h : n > N - s.size then .error .lengthError
    else .ok
      { storage := if s.size > 0 then moveRegion s.storage 0 s.inPos s.size else s.storage
        inPos := 0
        outPos := s.size
        lastPos := s.size + n
        length_eq := by
          split
          · exact s.length_moveFront
          · exact s.length_eq
        in_le := Nat.zero_le _
        out_le := Nat.le_add_right _ _
        last_le := by
          have := s.size_le
          omega }

/-- Octets are written to the start of the output sequence, as many as it takes. -/
def fill (s : FlatStorage N) (octets : Str) : FlatStorage N :=
  { s with
    storage := overwrite s.storage s.outPos (octets.take (s.lastPos - s.outPos))
    length_eq := by
      have := s.out_le
      have := s.last_le
      rw [length_overwrite, s.length_eq]
      rw [s.length_eq, List.length_take]
      omega }

/-- `commit`: octets go from the start of the output sequence to the end of the input, at most as
many as there are. Reference: `flat_static_buffer_base::commit` (`flat_static_buffer.hpp:125`). -/
def commit (s : FlatStorage N) (n : Nat) : FlatStorage N :=
  { s with
    outPos := s.outPos + min n (s.lastPos - s.outPos)
    in_le := Nat.le_add_right_of_le s.in_le
    out_le := by
      have := s.out_le
      omega }

/-- `consume`: octets are taken from the front of the input; when all of it is consumed, the
positions go back to the start. Reference: `flat_static_buffer_base::consume_impl`
(`flat_static_buffer.ipp:112`). -/
def consume (s : FlatStorage N) (n : Nat) : FlatStorage N :=
  if h : n ≥ s.size then
    { s with
      inPos := 0
      outPos := 0
      in_le := Nat.le_refl 0
      out_le := Nat.zero_le _ }
  else
    { s with
      inPos := s.inPos + n
      in_le := by
        have := s.in_le
        rw [size] at h
        omega }

/-! ## What the operations do to the sequences -/

section
variable (s : FlatStorage N)

/-- The positions of a buffer are in its storage, as its fields say of the size that the storage
has. -/
theorem le_length : s.outPos ≤ s.storage.length ∧ s.lastPos ≤ s.storage.length := by
  have := s.out_le
  have := s.last_le
  rw [s.length_eq]
  omega

/-- What is to be read is at the front after it was moved. -/
theorem region_moveFront : region (moveRegion s.storage 0 s.inPos s.size) 0 s.size = s.data := by
  have hsize : s.inPos + s.size = s.outPos := by
    have := s.in_le
    rw [size]
    omega
  rw [moveRegion, hsize]
  show region (overwrite s.storage 0 s.data) 0 s.size = s.data
  have hregion := @region_overwrite_self _ s.storage s.data 0 (Nat.zero_le s.storage.length)
  rw [s.length_data, Nat.zero_add] at hregion
  exact hregion

/-- **`prepare`** keeps what is to be read, wherever it lies, and fails exactly if there is no space
for `n` octets more. -/
theorem prepare_ok {n : Nat} (h : s.size + n ≤ N) :
    ∃ t, s.prepare n = .ok t ∧ t.data = s.data ∧ t.space.length = n := by
  unfold prepare
  split
  · refine ⟨_, rfl, rfl, ?_⟩
    rw [length_space]
    exact Nat.add_sub_cancel_left _ _
  · rw [dif_neg (by omega)]
    refine ⟨_, rfl, ?_, ?_⟩
    · unfold data
      simp only
      split
      · exact s.region_moveFront
      · next hsize =>
        have hzero : s.size = 0 := by omega
        have hempty : s.data.length = 0 := s.length_data.trans hzero
        rw [hzero, region_self]
        exact (List.length_eq_zero_iff.1 hempty).symm
    · rw [length_space]
      exact Nat.add_sub_cancel_left _ _

theorem prepare_error {n : Nat} (h : N < s.size + n) : s.prepare n = .error .lengthError := by
  have hsize : s.size ≤ s.outPos := Nat.sub_le _ _
  have := s.out_le
  have := s.last_le
  rw [prepare, dif_neg (by omega), dif_pos (by omega)]

/-- What is written is at the start of the output sequence, and nothing else is changed. -/
theorem fill_data (octets : Str) : (s.fill octets).data = s.data :=
  region_overwrite_before s.le_length.1 (Nat.le_refl _)

theorem fill_space {octets : Str} (h : octets.length ≤ s.space.length) :
    (s.fill octets).space = octets ++ s.space.drop octets.length := by
  rw [length_space] at h
  have hle := s.le_length
  have hlast := s.out_le
  show region (overwrite s.storage s.outPos (octets.take (s.lastPos - s.outPos))) s.outPos
    s.lastPos = _
  rw [List.take_of_length_le h, space, drop_region,
    ← region_append _ (Nat.le_add_right s.outPos octets.length) (by omega),
    region_overwrite_self hle.1, region_overwrite_behind (by omega) (Nat.le_refl _)]

/-- `commit` takes octets from the start of the output sequence and appends them to the input. -/
theorem commit_data {n : Nat} (h : n ≤ s.space.length) :
    (s.commit n).data = s.data ++ s.space.take n ∧ (s.commit n).space = s.space.drop n := by
  rw [length_space] at h
  have hlast := s.out_le
  have hmin : min n (s.lastPos - s.outPos) = n := Nat.min_eq_left h
  have htake : region s.storage s.outPos (s.outPos + n) = s.space.take n := by
    rw [space, region, region, Nat.add_sub_cancel_left, List.take_take, Nat.min_eq_left h]
  constructor
  · show region s.storage s.inPos (s.outPos + min n (s.lastPos - s.outPos)) = _
    rw [hmin, ← region_append _ s.in_le (Nat.le_add_right _ _), htake]
    rfl
  · show region s.storage (s.outPos + min n (s.lastPos - s.outPos)) s.lastPos = _
    rw [hmin]
    exact (drop_region _ _).symm

/-- `consume` removes the start of what is to be read. -/
theorem consume_data (n : Nat) : (s.consume n).data = s.data.drop n := by
  unfold consume
  split
  · next h =>
    rw [← s.length_data] at h
    rw [List.drop_eq_nil_of_le h]
    exact region_self _ _
  · exact (drop_region _ _).symm

/-- As long as something is left, the output sequence is kept. -/
theorem consume_space {n : Nat} (h : n < s.size) : (s.consume n).space = s.space := by
  rw [consume, dif_neg (Nat.not_le.2 h)]
  rfl

/-- **What was written is lost** if all is consumed before it is committed: then the octets at the
front of the storage are committed. -/
theorem commit_of_consume (k : Nat) :
    ((s.consume s.size).commit k).data = s.storage.take (min k s.lastPos) := by
  rw [consume, dif_pos (Nat.le_refl _)]
  show region s.storage 0 (0 + min k (s.lastPos - 0)) = _
  rw [region, List.drop_zero, Nat.zero_add, Nat.sub_zero, Nat.sub_zero]

end

end FlatStorage

/-! ## The buffer as a queue -/

/-- The operations of a buffer, `fill` being what the caller of `prepare` does. -/
inductive BufferOp where
  | prepare (n : Nat)
  | fill (octets : Str)
  | commit (n : Nat)
  | consume (n : Nat)
  | reset
deriving DecidableEq, Repr

/-- An operation of a buffer together with the exception it throws, if it throws one. -/
abbrev BufferEvent := BufferOp × Option StdException

namespace FlatStorage

variable {N : Nat}

/-- An operation on the storage, with what it throws; an operation that throws has changed
nothing. -/
def apply (s : FlatStorage N) : BufferOp → FlatStorage N × Option StdException
  | .prepare n =>
    match s.prepare n with
    | .ok t => (t, none)
    | .error e => (s, some e)
  | .fill octets => (s.fill octets, none)
  | .commit n => (s.commit n, none)
  | .consume n => (s.consume n, none)
  | .reset => (s.reset, none)

/-- The storage under its operations, one after another, in any order. -/
def machine : Machine (FlatStorage N) BufferEvent where
  step s e t := s.apply e.1 = (t, e.2)

end FlatStorage

/-- What a buffer is for: octets to be read, octets that were written behind them and can be
committed, and space for more of them. -/
structure Queue (N : Nat) where
  data : Str := []
  filled : Str := []
  room : Nat := 0
  size_le : data.length + filled.length + room ≤ N := by exact Nat.zero_le _

namespace Queue

variable {N : Nat}

/-- The uses of a buffer as a queue. What was written is at the caller's disposal until everything
is consumed. -/
inductive Step (q : Queue N) : BufferEvent → Queue N → Prop where
  | prepare {n : Nat} {t : Queue N} (h : q.data.length + n ≤ N) (hdata : t.data = q.data)
      (hfilled : t.filled = []) (hroom : t.room = n) : Step q (.prepare n, none) t
  | overflow {n : Nat} (h : N < q.data.length + n) : Step q (.prepare n, some .lengthError) q
  | fill {octets : Str} {t : Queue N} (h : octets.length ≤ q.filled.length + q.room)
      (hdata : t.data = q.data) (hfilled : t.filled = octets ++ q.filled.drop octets.length)
      (hroom : t.filled.length + t.room = q.filled.length + q.room) :
      Step q (.fill octets, none) t
  | commit {n : Nat} {t : Queue N} (h : n ≤ q.filled.length)
      (hdata : t.data = q.data ++ q.filled.take n) (hfilled : t.filled = q.filled.drop n)
      (hroom : t.room = q.room) : Step q (.commit n, none) t
  | consume {n : Nat} {t : Queue N} (h : n < q.data.length) (hdata : t.data = q.data.drop n)
      (hfilled : t.filled = q.filled) (hroom : t.room = q.room) : Step q (.consume n, none) t
  | consumeAll {n : Nat} (h : q.data.length ≤ n) : Step q (.consume n, none) {}
  | reset : Step q (.reset, none) {}

/-- A queue under these uses, one after another, in any order that they allow. -/
def machine : Machine (Queue N) BufferEvent where
  step := Step

end Queue

namespace FlatStorage

variable {N : Nat}

/-- The storage holds the queue: what is to be read, and at the start of the output sequence what
was written, with the space behind it. -/
structure Holds (s : FlatStorage N) (q : Queue N) : Prop where
  data : s.data = q.data
  filled : q.filled <+: s.space
  room : q.filled.length + q.room ≤ s.space.length

/-- A storage holds a queue with nothing but octets to be read, if it has them and enough space. -/
theorem Holds.of_data {s : FlatStorage N} {q : Queue N} (h : s.data = q.data)
    (hfilled : q.filled = []) (hroom : q.room ≤ s.space.length) : s.Holds q :=
  ⟨h, hfilled ▸ List.nil_prefix, by rw [hfilled, List.length_nil]; omega⟩

/-- **Every use of the queue** is one of the storage that holds it. -/
theorem Holds.step {s : FlatStorage N} {q q' : Queue N} (h : s.Holds q) {e : BufferEvent}
    (hstep : Queue.machine.step q e q') : ∃ t, machine.step s e t ∧ t.Holds q' := by
  have hsize : q.data.length = s.size := by rw [← h.data, s.length_data]
  cases hstep with
  | @prepare n t' hn hdata' hfilled hroom =>
    obtain ⟨t, ht, hdata, hspace⟩ := s.prepare_ok (n := n) (hsize ▸ hn)
    refine ⟨t, ?_, .of_data (hdata.trans (h.data.trans hdata'.symm)) hfilled
      (by rw [hspace, hroom])⟩
    show s.apply (.prepare n) = _
    rw [apply, ht]
  | @overflow n hn =>
    refine ⟨s, ?_, h⟩
    show s.apply (.prepare n) = _
    rw [apply, s.prepare_error (hsize ▸ hn)]
  | @fill octets t hoctets hdata hfilled hroom =>
    have hspace := s.fill_space (Nat.le_trans hoctets h.room)
    refine ⟨s.fill octets, rfl, (s.fill_data octets).trans (h.data.trans hdata.symm), ?_, ?_⟩
    · rw [hfilled, hspace]
      exact List.prefix_append_right_inj _ |>.2 (h.filled.drop _)
    · rw [hroom, hspace, List.length_append, List.length_drop]
      have := h.room
      omega
  | @commit n t hn hdata hfilled hroom =>
    have hle : n ≤ s.space.length := Nat.le_trans hn h.filled.length_le
    obtain ⟨hread, hspace⟩ := s.commit_data hle
    refine ⟨s.commit n, rfl, ?_, ?_, ?_⟩
    · obtain ⟨behind, hspace'⟩ := h.filled
      rw [hread, hdata, h.data, ← hspace', List.take_append_of_le_length hn]
    · rw [hfilled, hspace]
      exact h.filled.drop n
    · rw [hfilled, hroom, hspace, List.length_drop, List.length_drop]
      have := h.room
      omega
  | @consume n t hn hdata hfilled hroom =>
    have hspace := s.consume_space (n := n) (hsize ▸ hn)
    refine ⟨s.consume n, rfl, ?_, ?_, ?_⟩
    · rw [consume_data, h.data, hdata]
    · rw [hspace, hfilled]
      exact h.filled
    · rw [hspace, hfilled, hroom]
      exact h.room
  | @consumeAll n hn =>
    refine ⟨s.consume n, rfl, .of_data ?_ rfl (Nat.zero_le _)⟩
    rw [consume_data, h.data, List.drop_eq_nil_of_le hn]
  | reset => exact ⟨s.reset, rfl, .of_data (region_self _ _) rfl (Nat.zero_le _)⟩

/-- **The buffer is a queue**: however it is used as one, the storage holds the octets that are to
be read, wherever `prepare` has moved them, and `prepare` throws exactly if they and the space that
is asked for do not fit. -/
theorem queue_of_run {storage : Str} {es : List BufferEvent} {q : Queue storage.length}
    (h : Queue.machine.Run {} es q) :
    ∃ s, machine.Run (construct storage) es s ∧ s.data = q.data ∧ q.filled <+: s.space := by
  suffices hholds : ∃ s, machine.Run (construct storage) es s ∧ s.Holds q by
    obtain ⟨s, hrun, hs⟩ := hholds
    exact ⟨s, hrun, hs.data, hs.filled⟩
  refine h.invariant (P := fun es q => ∃ s, machine.Run (construct storage) es s ∧ s.Holds q)
    ⟨_, .nil, .of_data (region_self _ _) rfl (Nat.zero_le _)⟩ ?_
  rintro es q e q' - ⟨s, hrun, hs⟩ hstep
  obtain ⟨t, ht, hholds⟩ := hs.step hstep
  exact ⟨t, hrun.snoc ht, hholds⟩

/-- A buffer of four octets is filled, read from and filled again, and then there is no space for
two octets more. -/
def fourOctets : List BufferEvent :=
  [(.prepare 4, none), (.fill "abcd".toList, none), (.commit 3, none), (.consume 2, none),
    (.prepare 2, none), (.fill "ef".toList, none), (.commit 2, none),
    (.prepare 2, some .lengthError)]

/-- The operations are uses of a queue, after which the last three of the octets are to be read. -/
theorem run_fourOctets :
    ∃ q : Queue 4, Queue.machine.Run {} fourOctets q ∧ q.data = "cef".toList := by
  have h₁ := Machine.Run.nil.snoc (M := Queue.machine (N := 4)) (s := {})
    (.prepare (t := ⟨[], [], 4, by decide⟩) (by decide) rfl rfl rfl)
  have h₂ := h₁.snoc (@Queue.Step.fill _ _ "abcd".toList ⟨[], "abcd".toList, 0, by decide⟩
    (by decide) rfl rfl rfl)
  have h₃ := h₂.snoc
    (.commit (n := 3) (t := ⟨"abc".toList, ['d'], 0, by decide⟩) (by decide) rfl rfl rfl)
  have h₄ := h₃.snoc (.consume (n := 2) (t := ⟨['c'], ['d'], 0, by decide⟩) (by decide) rfl rfl rfl)
  have h₅ := h₄.snoc (.prepare (t := ⟨['c'], [], 2, by decide⟩) (by decide) rfl rfl rfl)
  have h₆ := h₅.snoc (@Queue.Step.fill _ _ "ef".toList ⟨['c'], "ef".toList, 0, by decide⟩
    (by decide) rfl rfl rfl)
  have h₇ := h₆.snoc
    (.commit (n := 2) (t := ⟨"cef".toList, [], 0, by decide⟩) (by decide) rfl rfl rfl)
  exact ⟨_, h₇.snoc (.overflow (by decide)), rfl⟩

/-- A storage of four octets allows the same operations, and then has the same octets to be read. -/
theorem queue_of_run_fourOctets :
    ∃ q : Queue 4, q.data = "cef".toList ∧ ∃ s, machine.Run (construct "xxxx".toList) fourOctets s ∧
      s.data = q.data ∧ q.filled <+: s.space := by
  obtain ⟨q, hrun, hdata⟩ := run_fourOctets
  exact ⟨q, hdata, queue_of_run hrun⟩

/-! ## Reading into the storage -/

/-- The buffer without the positions and without the octets that are not to be read. -/
def toBuffer (s : FlatStorage N) : FlatStaticBuffer N := ⟨s.data, s.length_data ▸ s.size_le⟩

/-- The buffer without the positions has as much to be read. -/
theorem size_toBuffer (s : FlatStorage N) : s.toBuffer.size = s.size := s.length_data

/-- `read_size`: how many octets are asked for, as many as fit behind the input and at most the
limit. Reference: `read_size` (`read_size.ipp:30`). -/
def readSize (s : FlatStorage N) (maxSize : Nat) : Nat :=
  min (max 512 (N - s.size)) (min maxSize (N - s.size))

/-- How the reading ends, with the buffer it leaves and what the stream has not delivered. -/
structure Result (N : Nat) where
  error : ErrorCode := {}
  request : Request := {}
  buffer : FlatStorage N
  stream : Stream
  thrown : Option StdException := none

/-- What a step of the reading comes to: it goes on at a label of the operation, or it is done. -/
inductive Step (N : Nat) where
  | next (pos : ReadPos) (parser : Parser) (buffer : FlatStorage N) (stream : Stream)
  | done (result : Result N)

/-- Where `read_some_op` starts: it parses if there is something in the buffer, and reads first if
there is not. Reference: `read_some_op::operator()` (`read.ipp:111`). -/
def readStart (s : FlatStorage N) : ReadPos := if s.size = 0 then .read else .parse

/-- The label `do_parse`: `put` is given the input of the buffer, and what it has used is consumed.
Reference: `read_some_op::operator()` (`read.ipp:146`). -/
def readParse (fuel : Nat) (p : Parser) (s : FlatStorage N) (stream : Stream) : Option (Step N) :=
  (p.put fuel s.data).map fun step =>
    let s := s.consume (s.size - step.rest.length)
    match step.ec with
    | some .needMore => .next .read step.parser s stream
    | some e => .done { error := e.toErrorCode, buffer := s, stream, thrown := e.exception }
    | none =>
      if step.parser.isDone then .done { request := step.parser.message, buffer := s, stream }
      else .next s.readStart step.parser s stream

/-- The label `do_read`: `async_read_some` fills what `prepare` has returned, and what it has read
is committed. Reference: `read_some_op::operator()` (`read.ipp:156`). -/
def readMore (p : Parser) (s : FlatStorage N) (stream : Stream) : Step N :=
  if s.readSize 65536 = 0 then
    .done { error := HttpError.bufferOverflow.toErrorCode, buffer := s, stream }
  else
    match s.prepare (s.readSize 65536) with
    | .error _ => .done { error := HttpError.bufferOverflow.toErrorCode, buffer := s, stream }
    | .ok s =>
      match stream.readSome s.space.length with
      | some (octets, stream) => .next .parse p ((s.fill octets).commit octets.length) stream
      | none =>
        if stream.final = .eof then
          if p.gotSome then
            match p.putEof with
            | .error e => .done { error := e.toErrorCode, buffer := s, stream }
            | .ok p => .done { request := p.message, buffer := s, stream }
          else .done { error := endOfStream, buffer := s, stream }
        else .done { error := stream.final, buffer := s, stream }

/-- A step of the reading, at the label that it is at. -/
def readStep (fuel : Nat) (pos : ReadPos) (p : Parser) (s : FlatStorage N) (stream : Stream) :
    Option (Step N) :=
  match pos with
  | .parse => readParse fuel p s stream
  | .read => some (readMore p s stream)

/-- The reading from a position on, step after step, until it is done. -/
def readFrom : Nat → ReadPos → Parser → FlatStorage N → Stream → Option (Result N)
  | 0, _, _, _, _ => none
  | fuel + 1, pos, p, s, stream =>
    match readStep fuel pos p s stream with
    | none => none
    | some (.done result) => some result
    | some (.next pos p s stream) => readFrom fuel pos p s stream

/-- A result of the reading without the positions of the buffer that it leaves. -/
def Result.toResult (r : Result N) : ReadResult N :=
  ⟨r.error, r.request, r.buffer.toBuffer, r.stream, r.thrown⟩

/-- A step of the reading without the positions of the buffer that it goes on with. -/
def Step.toStep : Step N → ReadStep N
  | .next pos p s stream => .next pos p s.toBuffer stream
  | .done result => .done result.toResult

section
variable (s : FlatStorage N)

/-- Without the positions, `consume` takes octets from the front of the buffer. -/
theorem toBuffer_consume (n : Nat) : (s.consume n).toBuffer = s.toBuffer.consume n :=
  FlatStaticBuffer.ext (s.consume_data n)

/-- What is read is committed as it is to the buffer, if `prepare` has made the space for it. -/
theorem toBuffer_commit {t : FlatStorage N} (hdata : t.data = s.data) {octets : Str}
    (h : octets.length ≤ t.space.length) (hspace : t.space.length ≤ N - s.size) :
    ((t.fill octets).commit octets.length).toBuffer = s.toBuffer.commit octets := by
  have hfill := t.fill_space h
  have hread := ((t.fill octets).commit_data (n := octets.length) (by
    rw [hfill, List.length_append]
    exact Nat.le_add_right _ _)).1
  refine FlatStaticBuffer.ext ?_
  show ((t.fill octets).commit octets.length).data = s.data ++ octets.take (N - s.toBuffer.size)
  rw [hread, fill_data, hfill, List.take_left, hdata, size_toBuffer,
    List.take_of_length_le (Nat.le_trans h hspace)]

/-- The reading starts at the same label without the positions, as that depends on the size only. -/
theorem readStart_toBuffer : Beast.readStart s.toBuffer = s.readStart := by
  rw [Beast.readStart, size_toBuffer, readStart]

/-- Without the positions, the parse of the input is that of the buffer, with the same octets
left. -/
theorem readParse_toStep (fuel : Nat) (p : Parser) (stream : Stream) :
    (s.readParse fuel p stream).map Step.toStep = Beast.readParse fuel p s.toBuffer stream := by
  rw [readParse, Beast.readParse, Option.map_map]
  refine Option.map_congr fun step _ => ?_
  have hconsume := s.toBuffer_consume (s.size - step.rest.length)
  rw [← size_toBuffer] at hconsume
  obtain ⟨q, rest, ec⟩ := step
  simp only [Function.comp_apply] at hconsume ⊢
  rw [← hconsume, readStart_toBuffer, size_toBuffer]
  cases ec with
  | none =>
    cases q.isDone <;> rfl
  | some e => cases e <;> rfl

/-- Without the positions, what is read goes behind the octets of the buffer, within the same
size. -/
theorem readMore_toStep (p : Parser) (stream : Stream) :
    (s.readMore p stream).toStep = Beast.readMore p s.toBuffer stream := by
  have hsize : s.toBuffer.readSize 65536 = s.readSize 65536 := by
    rw [FlatStaticBuffer.readSize, size_toBuffer, readSize]
  have hle : s.readSize 65536 ≤ N - s.size := by
    rw [readSize]
    omega
  obtain ⟨t, ht, hdata, hspace⟩ := s.prepare_ok (n := s.readSize 65536) (by
    have := s.size_le
    omega)
  have hbuffer : t.toBuffer = s.toBuffer := FlatStaticBuffer.ext hdata
  rw [readMore, Beast.readMore, hsize]
  split
  · rfl
  · next hpos =>
    rw [ht]
    simp only [hspace]
    cases hread : stream.readSome (s.readSize 65536) with
    | some x =>
      obtain ⟨octets, rest⟩ := x
      have hoctets := (Stream.readSome_length (Nat.pos_of_ne_zero hpos) hread).2.1
      simp only [Step.toStep, toBuffer_commit s hdata (hspace.symm ▸ hoctets) (hspace.symm ▸ hle)]
    | none =>
      simp only
      split
      · split
        · cases p.putEof <;> simp only [Step.toStep, Result.toResult, hbuffer]
        · simp only [Step.toStep, Result.toResult, hbuffer]
      · simp only [Step.toStep, Result.toResult, hbuffer]

end

/-- **Reading into the storage is reading into the buffer**, wherever the octets lie. -/
theorem readFrom_toResult (fuel : Nat) (pos : ReadPos) (p : Parser) (s : FlatStorage N)
    (stream : Stream) : (readFrom fuel pos p s stream).map Result.toResult =
      Beast.readFrom fuel pos p s.toBuffer stream := by
  induction fuel generalizing pos p s stream with
  | zero => rfl
  | succ fuel ih =>
    have hstep : (readStep fuel pos p s stream).map Step.toStep =
        Beast.readStep fuel pos p s.toBuffer stream := by
      cases pos with
      | parse => exact s.readParse_toStep fuel p stream
      | read => exact congrArg some (s.readMore_toStep p stream)
    rw [readFrom, Beast.readFrom, ← hstep]
    cases readStep fuel pos p s stream with
    | none => rfl
    | some step =>
      cases step with
      | done result => rfl
      | next pos p s stream => exact ih pos p s stream

/-- `async_read` into the storage, for a request that is read with a new parser. Reference:
`async_read` (`read.ipp:801`). -/
def asyncRead (s : FlatStorage N) (stream : Stream) : Result N :=
  (readFrom (readCost N .parse stream) s.readStart {} s stream).get (by
    rw [← Option.isSome_map, readFrom_toResult, ← s.readStart_toBuffer, asyncRead_eq]
    rfl)

end FlatStorage

end Gomibako.Beast
