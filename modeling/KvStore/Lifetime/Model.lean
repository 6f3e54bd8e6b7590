import KvStore.Lib.Checkpoint
import KvStore.Protocol.Replies
import KvStore.Rdb.Restore
import KvStore.Rdb.Startup

/-! The program over all its lives: `main` creates the engines and loads the snapshot, requests are
handled, `SAVE` and the thread of `check_auto_save` write the snapshot, and when the program ends only
the files are left. -/
namespace KvStore
open Fuel

/-- What a start gets from the system: whether the configuration file opens for writing, the memory
that the engines are created in, and the answers to the load of the snapshot. -/
structure StartIO (S : Type*) where
  configOpens : Bool
  tree : Rbtree
  nil : Ptr
  slots : Fin maxTableSize → Option (List HashNode)
  nodes : Ptr → Option (SkipNode S)
  header : Ptr
  load : LoadIO
  engines : ℕ → EngineAlloc

/-- The settings before the configuration file is read. -/
def launchSettings : Option CString → RdbSettings
  | none => defaultSettings
  | some path => (kvsRdbSetPath defaultSettings (some path)).2

/-- The running program. -/
structure Process (S : Type*) where
  settings : RdbSettings
  store : Store S

namespace Process

variable {S : Type*}

/-- The settings that the handler looks at. -/
def config (p : Process S) : ServerConfig := ⟨p.settings.toRdbConfig, p.settings.rdbFile⟩

/-- `init_kvengine`. -/
def initKvengine [Zero S] (n : ℕ) (w : StartIO S) (cfg : RdbSettings) (fs : Files) :
    Option (Process S) :=
  let e : Engines := ⟨kvsArrayCreate, kvsRbtreeCreate w.tree w.nil, kvsHashCreate w.slots⟩
  let skiptable := kvsSkiptableCreate w.nodes w.header
  let st := kvsRdbInit w.configOpens cfg fs
  let calls :=
    match st.loaded with
    | none => []
    | some file => (kvsRdbLoad st.settings.toRdbConfig w.load (st.files file)).calls
  (passRecords n w.engines 0 e calls).bind fun e => some ⟨st.settings, ⟨e, skiptable, st.files⟩⟩

/-- `main` up to the network loop; `path` is its second argument. -/
def start [Zero S] (n : ℕ) (w : StartIO S) (path : Option CString) (fs : Files) :
    Option (Process S) := initKvengine n w (launchSettings path) fs

/-- One round of `check_auto_save` behind its `sleep`; `none` while the mutex is held. -/
def checkAutoSave (io : SaveIO) (p : Process S) : Option (Process S) :=
  if !p.settings.rdbEnabled then some p
  else
    p.store.array.lock.bind fun array =>
    let e := { p.store.toEngines with array := array }
    (kvsRdbSave p.settings.toRdbConfig io e p.store.files p.settings.rdbFile).bind fun r =>
    some { p with store := { p.store with array := array.unlock, files := r.2 } }

end Process

/-- Who writes the snapshot: a client with `SAVE`, or the thread. -/
inductive SaveTrigger
  | request (seqId flags : ℕ) (payload : List UInt8) (io : SaveIO)
  | thread (io : SaveIO)

def SaveTrigger.io : SaveTrigger → SaveIO
  | request _ _ _ io => io
  | thread io => io

abbrev LifeEvent := Checkpoint.Event EngineRequest SaveTrigger

/-- A new start has memory for the engines and for everything that it loads. -/
structure StartIO.Grants {S : Type*} (w : StartIO S) : Prop where
  nil : w.nil ≠ null
  slots : w.slots = fun _ => some []
  room : ∀ i, w.load.room i = (true, true)
  array : ∀ i, (w.engines i).array = ⟨true, true⟩
  hash : ∀ i, (w.engines i).hash = ⟨true, true, true⟩
  node : ∃ block : ℕ → Ptr, Function.Injective block ∧
    ∀ i, (w.engines i).node = ⟨some (block i), true, true⟩ ∧ block i ≠ null ∧ block i ≠ w.nil

/-- A request `SAVE` is handled. -/
def AnswersSave {S : Type*} [Comparisons S] (P : Scores S) (cfg : ServerConfig) (s : Store S)
    (seqId flags : ℕ) (payload : List UInt8) (io : SaveIO) (reply : List UInt8) (s' : Store S) :
    Prop :=
  seqId < 2 ^ 32 ∧ flags < 2 ^ 32 ∧ payload.length ≤ 1024 ∧ ∃ w rest len buffer, w.save = io ∧
    (packet Cmd.save.code seqId flags payload).length ≤ len ∧
    len ≤ (packet Cmd.save.code seqId flags payload ++ rest).length ∧
    Returns (fun n => kvsTcpProtocol P cfg n w s
      (packet Cmd.save.code seqId flags payload ++ rest) len) ⟨reply.length, buffer, reply, s'⟩

/-- What the program does, with what a client gets back. A round of the thread is one step between two
requests: what the server changes while the thread walks the engines is not modelled. -/
inductive Lives {S : Type*} [Comparisons S] [Zero S] (P : Scores S) (path : Option CString) :
    Process S → LifeEvent → Option (List UInt8) → Process S → Prop
  | query {p : Process S} {r : EngineRequest} {reply : List UInt8} {s' : Store S}
    (h : Serves P p.config p.store r reply s') :
    Lives P path p (.call r) (some reply) { p with store := s' }
  | request {p : Process S} {seqId flags : ℕ} {payload : List UInt8} {io : SaveIO}
    {reply : List UInt8} {s' : Store S}
    (h : AnswersSave P p.config p.store seqId flags payload io reply s') :
    Lives P path p (.save (.request seqId flags payload io)) (some reply) { p with store := s' }
  | thread {p p' : Process S} {io : SaveIO} (h : p.checkAutoSave io = some p') :
    Lives P path p (.save (.thread io)) none p'
  | restart {p p' : Process S} {w : StartIO S} (hw : w.Grants)
    (h : Returns (fun n => Process.start n w path p.store.files) p') : Lives P path p .restart none p'

end KvStore
