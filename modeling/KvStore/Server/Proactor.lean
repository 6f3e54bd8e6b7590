import KvStore.Server.Reader
import KvStore.Lib.Guarded

/-! `proactor_start` of `proactor.c`: one loop that serves all connections through the two rings
of `io_uring`. There is one `buffer` that every `recv` fills and one `response` that every `send`
reads. What the system does between two steps of the loop is an event of its own, and may come
in any order. -/
namespace KvStore

/-- `BUFFER_LENGTH`. -/
def proactorBufferLength : ℕ := 1024

/-- The most completions that are reaped in one round. -/
def batchLength : ℕ := 128

/-- What a `send` was set up for: the connection, the length that is asked for, and the bytes that
the handler had answered when it was set up. -/
structure Outgoing where
  fd : ℤ
  len : ℕ
  bytes : List UInt8
  deriving DecidableEq

/-- An operation between `io_uring_get_sqe` and its completion. A `recv` that has filled the buffer
and a `send` that has read the response are still to be completed. -/
inductive Operation
  | accept
  | recv (fd : ℤ)
  | filled (fd : ℤ) (bytes : List UInt8)
  | send (r : Outgoing)
  | drained (fd : ℤ)

/-- A completion: the `event` and `fd` that were set with the operation, and its `res`. The `res`
of a `recv` is the length of the bytes it received, or negative. -/
inductive Completion
  | accept (connfd : ℤ)
  | read (fd : ℤ) (bytes : List UInt8)
  | readError (fd : ℤ)
  | write (fd : ℤ)

/-- The request that a `recv` has put into the buffer. -/
def Operation.request : Operation → Option (ℤ × List UInt8)
  | .filled fd bytes => some (fd, bytes)
  | _ => none

/-- The reply that a `send` has still to read. -/
def Operation.reply : Operation → Option Outgoing
  | .send r => some r
  | _ => none

def Completion.request : Completion → Option (ℤ × List UInt8)
  | .read fd bytes => if bytes = [] then none else some (fd, bytes)
  | _ => none

/-- The rings. `prepared` waits for `io_uring_submit`, `flying` is with the system, `queue` holds
what is complete, and `batch` what the loop has reaped and not looked at. There is no batch while
the loop is in `io_uring_wait_cqe`. -/
structure Ring where
  prepared : List Operation
  flying : List Operation
  queue : List Completion
  batch : Option (List Completion)

namespace Ring

variable (r : Ring)

/-- The requests that are in the buffer and have not gone to the handler. -/
def waiting : List (ℤ × List UInt8) :=
  (r.prepared ++ r.flying).filterMap Operation.request ++
    (r.batch.getD [] ++ r.queue).filterMap Completion.request

/-- The replies that are still to be read from the response. -/
def unsent : List Outgoing := (r.prepared ++ r.flying).filterMap Operation.reply

def prepare (ops : List Operation) : Ring := { r with prepared := r.prepared ++ ops }

def submit : Ring :=
  { r with prepared := [], flying := r.flying ++ r.prepared, batch := none }

/-- `io_uring_peek_batch_cqe`. -/
def reap : Ring :=
  { r with queue := r.queue.drop batchLength, batch := some (r.queue.take batchLength) }

def next (batch : List Completion) : Ring := { r with batch := some batch }

def replace (i : ℕ) (op : Operation) : Ring := { r with flying := r.flying.set i op }

def complete (i : ℕ) (c : Completion) : Ring :=
  { r with flying := r.flying.eraseIdx i, queue := r.queue ++ [c] }

end Ring

/-- A call of the handler: the connection whose completion it was made for, the bytes it was given,
what the system answered, the store before, and the response. -/
structure Handling (S : Type*) where
  fd : ℤ
  request : List UInt8
  sys : ℕ × Host
  store : Store S
  response : List UInt8

/-- What a `send` has read from the response for its reply. There are no bytes when it failed. -/
structure Transmission where
  reply : Outgoing
  bytes : Option (List UInt8)

/-- The rings and the local variables of `proactor_start`, the store, and what has been received,
handled and transmitted. -/
structure Proactor (S : Type*) extends Ring where
  buffer : List UInt8
  response : List UInt8
  store : Store S
  received : List (ℤ × List UInt8)
  handled : List (Handling S)
  transmitted : List Transmission

/-- The state in front of the loop. -/
def Proactor.start {S : Type*} (s : Store S) : Proactor S where
  prepared := [.accept]
  flying := []
  queue := []
  batch := some []
  buffer := List.replicate proactorBufferLength 0
  response := List.replicate proactorBufferLength 0
  store := s
  received := []
  handled := []
  transmitted := []

/-- The steps of the loop (`submit`, `reap`, and `next` for one completion of the batch, with what
the system answers to the handler), and those of the system on the operation at an index. -/
inductive Event
  | submit
  | reap
  | next (n : ℕ) (w : Host)
  | accepted (i : ℕ) (connfd : ℤ)
  | fill (i : ℕ) (bytes : List UInt8)
  | received (i : ℕ)
  | closed (i : ℕ)
  | drain (i k : ℕ)
  | sent (i : ℕ)
  | failed (i : ℕ)

section Step

variable {S : Type*} [Comparisons S] (P : Scores S) (cfg : ServerConfig)

/-- The body of the loop over a batch. The length of a `send` is the return value of the handler as
an `unsigned int`; a response longer than its buffer does not come back. -/
def Proactor.entry (n : ℕ) (w : Host) (t : Proactor S) : Completion → Option (Proactor S)
  | .accept connfd => some { t with toRing := t.prepare [.accept, .recv connfd] }
  | .readError _ => some t
  | .write fd => some { t with toRing := t.prepare [.recv fd] }
  | .read fd bytes =>
    if bytes = [] then some t
    else
      (kvsTcpProtocol P cfg n w t.store t.buffer bytes.length).bind fun h =>
      if proactorBufferLength < h.response.length then none
      else some
        { toRing := t.prepare [.send ⟨fd, (h.ret % 2 ^ 32).toNat, h.response⟩]
          buffer := h.buffer
          response := h.response ++ t.response.drop h.response.length
          store := h.store
          received := t.received
          handled := t.handled ++ [⟨fd, t.buffer.take bytes.length, (n, w), t.store, h.response⟩]
          transmitted := t.transmitted }

/-- An event that cannot come gives `none`. A `recv` brings at least one byte and at most the
length of the buffer, a `send` reads some first bytes of the response. -/
def proactorStep (t : Proactor S) : Event → Option (Proactor S)
  | .submit =>
    match t.batch with
    | some [] => some { t with toRing := t.toRing.submit }
    | _ => none
  | .reap =>
    match t.batch, t.queue with
    | none, _ :: _ => some { t with toRing := t.toRing.reap }
    | _, _ => none
  | .next n w =>
    match t.batch with
    | some (c :: batch) => Proactor.entry P cfg n w { t with toRing := t.toRing.next batch } c
    | _ => none
  | .accepted i connfd =>
    match t.flying[i]? with
    | some .accept => some { t with toRing := t.complete i (.accept connfd) }
    | _ => none
  | .fill i bytes =>
    match t.flying[i]? with
    | some (.recv fd) =>
      if bytes = [] ∨ proactorBufferLength < bytes.length then none
      else some { t with
        toRing := t.replace i (.filled fd bytes)
        buffer := bytes ++ t.buffer.drop bytes.length
        received := t.received ++ [(fd, bytes)] }
    | _ => none
  | .received i =>
    match t.flying[i]? with
    | some (.filled fd bytes) => some { t with toRing := t.complete i (.read fd bytes) }
    | _ => none
  | .closed i =>
    match t.flying[i]? with
    | some (.recv fd) => some { t with toRing := t.complete i (.read fd []) }
    | _ => none
  | .drain i k =>
    match t.flying[i]? with
    | some (.send r) =>
      if r.len < k ∨ t.response.length < k then none
      else some { t with
        toRing := t.replace i (.drained r.fd)
        transmitted := t.transmitted ++ [⟨r, some (t.response.take k)⟩] }
    | _ => none
  | .sent i =>
    match t.flying[i]? with
    | some (.drained fd) => some { t with toRing := t.complete i (.write fd) }
    | _ => none
  | .failed i =>
    match t.flying[i]? with
    | some (.recv fd) => some { t with toRing := t.complete i (.readError fd) }
    | some (.send r) => some { t with
        toRing := t.complete i (.write r.fd)
        transmitted := t.transmitted ++ [⟨r, none⟩] }
    | _ => none

/-- One event of `proactor_start`, as a step of a machine. -/
def proactorStart (t : Proactor S) (e : Event) : Option (Unit × Proactor S) :=
  (proactorStep P cfg t e).map fun t => ((), t)

end Step

end KvStore
