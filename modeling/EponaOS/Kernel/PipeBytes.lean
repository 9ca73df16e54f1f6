import EponaOS.Lib.Ring
import EponaOS.Lib.Run

/-!
# The bytes of a pipe

`pipe_write` and `pipe_read` of `syscall.c`, on the bytes that `Pipe` leaves out. The buffer
is a queue: what reads return is what writes accepted, in the same order.
-/

namespace EponaOS.Kernel.PipeBytes

abbrev PIPE_BUF_SIZE : Nat := 4096

/-- `pipe_t`, without its ends. -/
structure PipeBuf where
  buf : Nat → UInt8
  head : Nat
  count : Nat

/-- What `pipe_alloc` makes of a pipe that is not in use. -/
def pipeAlloc (p : PipeBuf) : PipeBuf := { p with head := 0, count := 0 }

/-- The result of a C function that casts a `uint64_t` count to `int`. -/
def asInt (n : Nat) : Int :=
  if n % 2 ^ 32 < 2 ^ 31 then (n % 2 ^ 32 : Nat) else (n % 2 ^ 32 : Nat) - (2 ^ 32 : Nat)

/-- The loop of `pipe_read` with `n` bytes read, `k` before it has read all that it should. -/
def pipeReadFrom : Nat → Nat → (Nat → UInt8) → PipeBuf → Nat × (Nat → UInt8) × PipeBuf
  | 0, n, dst, p => (n, dst, p)
  | k + 1, n, dst, p =>
    if p.count > 0 then
      let tail := (p.head + PIPE_BUF_SIZE + 2 ^ 32 - p.count) % 2 ^ 32 % PIPE_BUF_SIZE
      let dst := fun i => if i = n then p.buf tail else dst i
      pipeReadFrom k (n + 1) dst { p with count := p.count - 1 }
    else (n, dst, p)

def pipeRead (p : PipeBuf) (count : Nat) (dst : Nat → UInt8) : Int × (Nat → UInt8) × PipeBuf :=
  match pipeReadFrom count 0 dst p with
  | (n, dst, p) => (asInt n, dst, p)

/-- The loop of `pipe_write` with `n` bytes written. -/
def pipeWriteFrom (src : Nat → UInt8) : Nat → Nat → PipeBuf → Nat × PipeBuf
  | 0, n, p => (n, p)
  | k + 1, n, p =>
    if p.count < PIPE_BUF_SIZE then
      pipeWriteFrom src k (n + 1) {
        buf := fun i => if i = p.head then src n else p.buf i
        head := (p.head + 1) % PIPE_BUF_SIZE
        count := p.count + 1 }
    else (n, p)

def pipeWrite (p : PipeBuf) (count : Nat) (src : Nat → UInt8) : Int × PipeBuf :=
  match pipeWriteFrom src count 0 p with
  | (n, p) => (asInt n, p)

-- ---------------------------------------------------------------------------
-- The queue
-- ---------------------------------------------------------------------------

def PipeBuf.bytes (p : PipeBuf) : List UInt8 := Fifo.contents PIPE_BUF_SIZE p.buf p.head p.count

structure PipeBuf.Ok (p : PipeBuf) : Prop where
  head : p.head < PIPE_BUF_SIZE
  count : p.count ≤ PIPE_BUF_SIZE

def firstBytes (buf : Nat → UInt8) (n : Nat) : List UInt8 := (List.range n).map buf

variable {p p' : PipeBuf} {src dst : Nat → UInt8}

theorem pipeAlloc_ok (p : PipeBuf) : (pipeAlloc p).Ok := ⟨Nat.zero_lt_succ _, Nat.zero_le _⟩

theorem pipeAlloc_bytes (p : PipeBuf) : (pipeAlloc p).bytes = [] := Fifo.contents_zero

@[simp] theorem PipeBuf.bytes_length (p : PipeBuf) : p.bytes.length = p.count :=
  Fifo.contents_length

theorem asInt_of_lt (h : n < 2 ^ 31) : asInt n = n := by
  rw [asInt, if_pos (by omega), Nat.mod_eq_of_lt (by omega)]

theorem pipeWriteFrom_spec (h : p.Ok) (k n : Nat) : ∃ p', pipeWriteFrom src k n p =
      (n + min k (PIPE_BUF_SIZE - p.count), p') ∧ p'.Ok ∧
      p'.bytes = p.bytes ++
        (List.range (min k (PIPE_BUF_SIZE - p.count))).map fun i => src (n + i) := by
  induction k generalizing n p with
  | zero =>
    rw [Nat.zero_min]
    exact ⟨p, rfl, h, (List.append_nil _).symm⟩
  | succ k ih =>
    rw [pipeWriteFrom]
    by_cases hroom : p.count < PIPE_BUF_SIZE
    · rw [if_pos hroom]
      obtain ⟨p', he, hp', hbytes⟩ := ih (p := {
        buf := fun i => if i = p.head then src n else p.buf i
        head := (p.head + 1) % PIPE_BUF_SIZE
        count := p.count + 1 }) ⟨Nat.mod_lt _ (by decide), hroom⟩ (n + 1)
      have hput : PipeBuf.bytes {
          buf := fun i => if i = p.head then src n else p.buf i
          head := (p.head + 1) % PIPE_BUF_SIZE
          count := p.count + 1 } = p.bytes ++ [src n] := Fifo.contents_put h.head hroom (src n)
      have hmin : min (k + 1) (PIPE_BUF_SIZE - p.count) =
          min k (PIPE_BUF_SIZE - (p.count + 1)) + 1 := by omega
      refine ⟨p', ?_, hp', ?_⟩
      · rw [he, hmin]
        congr 1
        dsimp only
        omega
      · rw [hbytes, hput, hmin, List.range_succ_eq_map, List.map_cons, List.map_map,
          List.append_assoc, List.singleton_append, Nat.add_zero]
        congr 2
        refine List.map_congr_left fun i _ => ?_
        rw [Function.comp, Nat.succ_eq_add_one, Nat.add_assoc, Nat.add_comm 1 i]
    · rw [if_neg hroom]
      have hmin : min (k + 1) (PIPE_BUF_SIZE - p.count) = 0 := by omega
      rw [hmin]
      exact ⟨p, rfl, h, (List.append_nil _).symm⟩

/-- `pipe_write` accepts the bytes that there is room for. -/
theorem pipeWrite_spec (h : p.Ok) (count : Nat) (src : Nat → UInt8) :
    ∃ (n : Nat) (p' : PipeBuf), pipeWrite p count src = ((n : Int), p') ∧ n ≤ count ∧ p'.Ok ∧
      p'.bytes = p.bytes ++ firstBytes src n ∧ (n < count → p'.count = PIPE_BUF_SIZE) := by
  obtain ⟨p', he, hp', hbytes⟩ := pipeWriteFrom_spec h count 0
  have hcount := congrArg List.length hbytes
  simp only [Nat.zero_add, PipeBuf.bytes_length, List.length_append, List.length_map,
    List.length_range] at he hbytes hcount
  have hle := h.count
  have hsize : PIPE_BUF_SIZE = 4096 := rfl
  refine ⟨_, p', ?_, Nat.min_le_left .., hp', hbytes, fun hlt => by omega⟩
  rw [pipeWrite, he]
  dsimp only
  rw [asInt_of_lt (by omega)]

theorem pipeReadFrom_spec (h : p.Ok) (k n : Nat) (dst : Nat → UInt8) :
    ∃ dst' p', pipeReadFrom k n dst p = (n + min k p.count, dst', p') ∧ p'.Ok ∧
      (∀ i, i < n → dst' i = dst i) ∧
      p.bytes = ((List.range (min k p.count)).map fun i => dst' (n + i)) ++ p'.bytes := by
  induction k generalizing n p dst with
  | zero =>
    rw [Nat.zero_min]
    exact ⟨dst, p, rfl, h, fun _ _ => rfl, rfl⟩
  | succ k ih =>
    rw [pipeReadFrom]
    by_cases hany : p.count > 0
    · rw [if_pos hany]
      have hle := h.count
      have hhead := h.head
      have htail : (p.head + PIPE_BUF_SIZE + 2 ^ 32 - p.count) % 2 ^ 32 % PIPE_BUF_SIZE =
          Fifo.tail PIPE_BUF_SIZE p.head p.count := by
        have hmod : p.head + PIPE_BUF_SIZE + 2 ^ 32 - p.count =
            p.head + PIPE_BUF_SIZE - p.count + 2 ^ 32 := by omega
        have hsize : PIPE_BUF_SIZE = 4096 := rfl
        have hlt : p.head + PIPE_BUF_SIZE - p.count < 2 ^ 32 := by omega
        rw [Fifo.tail, hmod, Nat.add_mod_right, Nat.mod_eq_of_lt hlt]
      obtain ⟨dst', p', he, hp', hold, hbytes⟩ := ih (p := { p with count := p.count - 1 })
        ⟨hhead, Nat.le_trans (Nat.sub_le ..) hle⟩ (n + 1) fun i =>
          if i = n then p.buf (Fifo.tail PIPE_BUF_SIZE p.head p.count) else dst i
      have hmin : min (k + 1) p.count = min k (p.count - 1) + 1 := by omega
      have hfirst : dst' (n + 0) = p.buf (Fifo.tail PIPE_BUF_SIZE p.head p.count) := by
        rw [hold (n + 0) (Nat.lt_succ_self n), if_pos (Nat.add_zero n)]
      have htake : p.bytes = p.buf (Fifo.tail PIPE_BUF_SIZE p.head p.count) ::
          PipeBuf.bytes { p with count := p.count - 1 } := by
        have htake : Fifo.contents PIPE_BUF_SIZE p.buf p.head (p.count - 1 + 1) = _ :=
          Fifo.contents_take (by omega)
        rwa [Nat.sub_add_cancel hany] at htake
      refine ⟨dst', p', ?_, hp', fun i hi => ?_, ?_⟩
      · dsimp only
        rw [htail, he, hmin]
        congr 1
        dsimp only
        omega
      · rw [hold i (Nat.lt_succ_of_lt hi), if_neg (Nat.ne_of_lt hi)]
      · rw [htake, hbytes, hmin, List.range_succ_eq_map, List.map_cons, List.map_map,
          List.cons_append, hfirst]
        congr 2
        refine List.map_congr_left fun i _ => ?_
        rw [Function.comp, Nat.succ_eq_add_one, Nat.add_assoc, Nat.add_comm 1 i]
    · rw [if_neg hany]
      have hmin : min (k + 1) p.count = 0 := by omega
      rw [hmin]
      exact ⟨dst, p, rfl, h, fun _ _ => rfl, rfl⟩

theorem pipeRead_spec (h : p.Ok) (count : Nat) (dst : Nat → UInt8) :
    ∃ (n : Nat) (dst' : Nat → UInt8) (p' : PipeBuf),
      pipeRead p count dst = ((n : Int), dst', p') ∧ n ≤ count ∧ p'.Ok ∧
      p.bytes = firstBytes dst' n ++ p'.bytes ∧ (n < count → p'.count = 0) := by
  obtain ⟨dst', p', he, hp', -, hbytes⟩ := pipeReadFrom_spec h count 0 dst
  have hcount := congrArg List.length hbytes
  simp only [Nat.zero_add, PipeBuf.bytes_length, List.length_append, List.length_map,
    List.length_range] at he hbytes hcount
  have hle := h.count
  have hsize : PIPE_BUF_SIZE = 4096 := rfl
  refine ⟨_, dst', p', ?_, Nat.min_le_left .., hp', hbytes, fun hlt => by omega⟩
  rw [pipeRead, he]
  dsimp only
  rw [asInt_of_lt (by omega)]

-- ---------------------------------------------------------------------------
-- Runs
-- ---------------------------------------------------------------------------

structure PipeState where
  pipe : PipeBuf
  accepted : List UInt8
  returned : List UInt8

inductive PipeAct
  | write (count : Nat) (src : Nat → UInt8) (n : Int)
  | read (count : Nat) (dst : Nat → UInt8) (n : Int)

def pipeStep (s : PipeState) (a : PipeAct) (s' : PipeState) : Prop :=
  match a with
  | .write count src n => ∃ p, pipeWrite s.pipe count src = (n, p) ∧
      s' = { s with pipe := p, accepted := s.accepted ++ firstBytes src n.toNat }
  | .read count dst n => ∃ dst' p, pipeRead s.pipe count dst = (n, dst', p) ∧
      s' = { s with pipe := p, returned := s.returned ++ firstBytes dst' n.toNat }

structure PipeState.Queued (s : PipeState) : Prop where
  ok : s.pipe.Ok
  bytes : s.returned ++ s.pipe.bytes = s.accepted

/-- The call moves at most the bytes it is asked to, and fewer only if a write fills the pipe
or a read empties it. -/
def PipeAct.Full (a : PipeAct) (p : PipeBuf) : Prop :=
  match a with
  | .write count _ n => 0 ≤ n ∧ n ≤ count ∧ (n < count → p.count = PIPE_BUF_SIZE)
  | .read count _ n => 0 ≤ n ∧ n ≤ count ∧ (n < count → p.count = 0)

variable {s s' : PipeState} {a : PipeAct}

theorem PipeState.Queued.step (h : s.Queued) (hs : pipeStep s a s') :
    s'.Queued ∧ a.Full s'.pipe := by
  cases a with
  | write count src n =>
    obtain ⟨p, he, rfl⟩ := hs
    obtain ⟨m, p', he', hle, hp', hbytes, hfull⟩ := pipeWrite_spec h.ok count src
    cases he'.symm.trans he
    refine ⟨⟨hp', ?_⟩, Int.natCast_nonneg m, by omega, fun hlt => hfull (by omega)⟩
    rw [hbytes, ← List.append_assoc, h.bytes]
    rfl
  | read count dst n =>
    obtain ⟨dst', p, he, rfl⟩ := hs
    obtain ⟨m, d, p', he', hle, hp', hbytes, hempty⟩ := pipeRead_spec h.ok count dst
    cases he'.symm.trans he
    refine ⟨⟨hp', ?_⟩, Int.natCast_nonneg m, by omega, fun hlt => hempty (by omega)⟩
    rw [← h.bytes, hbytes, ← List.append_assoc]
    rfl

/-- A pipe is a queue of at most 4096 bytes. -/
theorem pipe_fifo (p : PipeBuf) (h : Run pipeStep (fun _ _ => True) ⟨pipeAlloc p, [], []⟩ as s) :
    s.returned ++ s.pipe.bytes = s.accepted ∧ s.pipe.bytes.length = s.pipe.count ∧
      s.pipe.count ≤ PIPE_BUF_SIZE ∧ s.pipe.head < PIPE_BUF_SIZE ∧
      ∀ a s', pipeStep s a s' → a.Full s'.pipe := by
  have hinit : PipeState.Queued ⟨pipeAlloc p, [], []⟩ := ⟨pipeAlloc_ok p, pipeAlloc_bytes p⟩
  have hq := h.invariant PipeState.Queued hinit fun _ _ _ h _ hs => (h.step hs).1
  exact ⟨hq.bytes, PipeBuf.bytes_length _, hq.ok.count, hq.ok.head, fun _ _ hs => (hq.step hs).2⟩

theorem pipe_fifo_twoBytes : ∃ s,
    Run pipeStep (fun _ _ => True) ⟨pipeAlloc ⟨fun _ => 9, 7, 5⟩, [], []⟩
      [.write 2 (fun i => UInt8.ofNat i) 2, .read 1 (fun _ => 0) 1] s ∧
    s.returned ++ s.pipe.bytes = s.accepted ∧ s.accepted = [0, 1] := by
  have hrun : Run pipeStep (fun _ _ => True) ⟨pipeAlloc ⟨fun _ => 9, 7, 5⟩, [], []⟩
      [.write 2 (fun i => UInt8.ofNat i) 2, .read 1 (fun _ => 0) 1] _ :=
    .cons trivial ⟨_, rfl, rfl⟩ (.cons trivial ⟨_, _, rfl, rfl⟩ .nil)
  exact ⟨_, hrun, (pipe_fifo _ hrun).1, rfl⟩

end EponaOS.Kernel.PipeBytes
