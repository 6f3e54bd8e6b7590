import KvStore.Lib.History
import KvStore.Protocol.Clients
import KvStore.Server.Bounds

/-! Clients and server together. A client is a program as `skiptable_bench.go`: it writes a packet,
reads the response, and goes on to the next one. The server has a `server_reader` for every
connection, and they share the engines. In between, a connection is two streams of bytes, and a
`recv` or a `Read` takes as many of them as it happens to get. -/
namespace KvStore
open Endian History

/-- A request as `singleZaddTest` and `singleZrangeTest` make it, that the server does not refuse
for its length. -/
structure Request where
  cmdType : UInt32
  seqId : UInt32
  data : List UInt8
  data_le : data.length ≤ 1024

/-- The packet of a request, without flags. -/
def Request.packet (r : Request) : RequestPacket where
  cmdType := r.cmdType.toNat
  seqId := r.seqId.toNat
  flags := 0
  payload := r.data
  cmdType_lt := r.cmdType.toNat_lt
  seqId_lt := r.seqId.toNat_lt
  flags_lt := Nat.two_pow_pos 32
  payload_le := r.data_le

/-- What `parseTcpResponse` returns: the data as a string, or an error. -/
inductive Response
  | ok (data : List UInt8)
  | invalidMagic (magic : ℕ)
  | eof

/-- Where a client is: in front of a `Write`, or in one of the two calls of `readN`, with what has
been read into the buffer. -/
inductive Phase
  | idle
  | header (headerBuf : List UInt8)
  | data (dataLen : ℕ) (dataBuf : List UInt8)

/-- A client with the requests that it has not written, and what it got for the others. -/
structure Client where
  todo : List Request
  phase : Phase
  responses : List Response

/-- `len(buf) - total` in `readN`. -/
def Phase.wants : Phase → ℕ
  | .idle => 0
  | .header headerBuf => tcpHeaderSize - headerBuf.length
  | .data dataLen dataBuf => dataLen - dataBuf.length

def Client.write (c : Client) : Option (List UInt8 × Client) :=
  match c.phase, c.todo with
  | .idle, r :: todo =>
    some (SkiptableBench.buildTcpPacket r.cmdType r.seqId r.data, ⟨todo, .header [], c.responses⟩)
  | _, _ => none

/-- `parseTcpResponse` returns. -/
def Client.got (c : Client) (response : Response) : Client :=
  ⟨c.todo, .idle, c.responses ++ [response]⟩

/-- A `Read` that gives `chunk`. An empty one is the end of the stream. -/
def Client.read (c : Client) (chunk : List UInt8) : Option Client :=
  if c.phase.wants < chunk.length then none
  else
    match c.phase with
    | .idle => none
    | .header headerBuf =>
      if chunk = [] then some (c.got .eof)
      else
        let headerBuf := headerBuf ++ chunk
        if headerBuf.length < tcpHeaderSize then some { c with phase := .header headerBuf }
        else
          let magic := ofNet (headerBuf.take 4)
          if magic ≠ tcpMagic then some (c.got (.invalidMagic magic))
          else
            let dataLen := ofNet ((headerBuf.drop 12).take 4)
            if 0 < dataLen then some { c with phase := .data dataLen [] }
            else some (c.got (.ok []))
    | .data dataLen dataBuf =>
      if chunk = [] then some (c.got .eof)
      else
        let dataBuf := dataBuf ++ chunk
        if dataBuf.length < dataLen then some { c with phase := .data dataLen dataBuf }
        else some (c.got (.ok dataBuf))

/-- A connection: the client, what it has sent and the server has not received, what the server has
sent and the client has not read, and the reader. `hungUp` tells that the client has closed. -/
structure Connection (S : Type*) where
  client : Client
  up : List UInt8
  down : List UInt8
  reader : Reader S
  hungUp : Bool

/-- The engines, and the connections that were accepted. The store inside a reader is the one it
has seen last. -/
structure Network (ι S : Type*) where
  store : Store S
  conns : ι → Connection S

/-- What can happen: a client writes, reads or closes, and a reader of the server receives or goes
through its loop over packets once. -/
inductive Network.Event (ι : Type*)
  | write (i : ι)
  | read (i : ι) (chunk : List UInt8)
  | close (i : ι)
  | recv (i : ι) (chunk : List UInt8)
  | round (i : ι) (n : ℕ) (w : Host)

def Network.Event.conn {ι : Type*} : Network.Event ι → ι
  | .write i => i
  | .read i _ => i
  | .close i => i
  | .recv i _ => i
  | .round i _ _ => i

/-- The connection whose next packet is handled. -/
def Network.Event.handled {ι : Type*} : Network.Event ι → List ι
  | .round i _ _ => [i]
  | _ => []

/-- What the system answers to the command of a round, and the bound on its loops. -/
def Network.Event.sys {ι : Type*} : Network.Event ι → Option (ℕ × Host)
  | .round _ n w => some (n, w)
  | _ => none

/-- `chunk` is taken from the front of a stream; nothing is given only behind its end. -/
def takeChunk (stream chunk : List UInt8) (ended : Bool) : Option (List UInt8) :=
  if chunk = [] then if stream = [] ∧ ended = true then some [] else none
  else if chunk <+: stream then some (stream.drop chunk.length) else none

section Steps

variable {ι S : Type*} [Comparisons S] (P : Scores S) (cfg : ServerConfig)

/-- What an event does to its connection and to the engines. -/
def Connection.step (s : Store S) (c : Connection S) :
    Network.Event ι → Option (Store S × Connection S)
  | .write _ =>
    c.client.write.map fun x => (s, { c with client := x.2, up := c.up ++ x.1 })
  | .read _ chunk =>
    (takeChunk c.down chunk c.reader.closed).bind fun down =>
    (c.client.read chunk).map fun client => (s, { c with client := client, down := down })
  | .close _ =>
    match c.client.phase, c.client.todo with
    | .idle, [] => if c.hungUp then none else some (s, { c with hungUp := true })
    | _, _ => none
  | .recv _ chunk =>
    (takeChunk c.up chunk c.hungUp).bind fun up =>
    (readerStep P cfg c.reader (.recv chunk)).map fun r => (s, { c with reader := r, up := up })
  | .round _ n w =>
    (readerStep P cfg c.reader (.round s n w)).map fun r =>
    (r.store, { c with
      reader := r
      down := c.down ++ (r.sent.drop c.reader.sent.length).flatten })

variable [DecidableEq ι]

def Network.step (σ : Network ι S) (e : Event ι) : Option (Network ι S) :=
  ((σ.conns e.conn).step P cfg σ.store e).map fun x =>
    ⟨x.1, Function.update σ.conns e.conn x.2⟩

end Steps

/-- Every client has its program, and its connection has just been accepted. -/
def Network.start {ι S : Type*} (s : Store S) (programs : ι → List Request) : Network ι S :=
  ⟨s, fun i => ⟨⟨programs i, .idle, []⟩, [], [], .start s, false⟩⟩

end KvStore
