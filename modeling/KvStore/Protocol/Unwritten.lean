import KvStore.Array.Fills
import KvStore.Protocol.Replies
import KvStore.Skip.Agree

/-! What a reply owes to memory that was never written: two servers that start from different memory
and get the same requests, side by side. -/
namespace KvStore
open Fuel KvsArray HashTable

/-- A packet in its buffer, with the answers of the system to the request. -/
structure TcpRequest where
  host : Host
  buffer : List UInt8
  len : ℕ

/-- What the blocks that `kvs_malloc` and `malloc` return hold at first: the slots of the array, the
nodes of the tree, the slots of the hash table, and the nodes of the skip list. -/
structure FirstMemory (S : Type*) where
  table : ℕ → ArrayItem
  tree : Rbtree
  slots : Fin maxTableSize → Option (List HashNode)
  nodes : Ptr → Option (SkipNode S)

variable {S : Type*}

/-- `init_kvengine`, with the blocks of the sentinel and of the header. -/
def initKvengine [Zero S] (files : Files) (sentinel header : Ptr) (mem : FirstMemory S) : Store S where
  array := { kvsArrayCreate with table := mem.table }
  rbtree := kvsRbtreeCreate mem.tree sentinel
  hash := kvsHashCreate mem.slots
  skiptable := kvsSkiptableCreate mem.nodes header
  files := files

/-- Memory in which a read of a slot that was never written does not come back. -/
def unwrittenMemory : FirstMemory S := ⟨fun _ => .unwritten, .blank, fun _ => none, fun _ => none⟩

/-- The command reads no slot of the array or of the hash table that was never written. -/
def ReadsWritten (cfg : ServerConfig) (w : Host) (a : KvsArray) :
    Cmd → Option CString → Option CString → Prop
  | .set, some k, some _ => a.total ≠ kvsArraySize → ¬ Unwritten true a k
  | .get, some k, _ => ¬ Unwritten true a k
  | .del, some k, _ => ¬ Unwritten false a k
  | .mod, some k, some _ => ¬ Unwritten true a k
  | .exist, some k, _ => ¬ Unwritten true a k
  | .hset, some _, some _ => False
  | .hget, some _, _ => False
  | .save, _, _ => cfg.rdb.rdbEnabled = false ∨ w.save.opens = false
  | _, _, _ => True

namespace TcpRequest

variable [Comparisons S] (P : Scores S) (cfg : ServerConfig)

def answer (q : TcpRequest) (s : Store S) : ℕ → Option (Handled S) := fun n =>
  kvsTcpProtocol P cfg n q.host s q.buffer q.len

/-- What `kvs_tcp_protocol` makes of the bytes: nothing when it returns before the command. -/
def command (q : TcpRequest) : Option (Option Cmd × Option CString × Option CString) :=
  if q.len < tcpHeaderSize ∨ q.buffer.length < q.len then none
  else
    let r := parseTcpHeader q.buffer
    if r.1 < 0 ∨ q.len < tcpHeaderSize + r.2.dataLen then none
    else (splitPayload q.buffer r.2.dataLen).map fun p => (Cmd.ofCode r.2.cmdType, p.key, p.value)

def Careful (s : Store S) (q : TcpRequest) : Prop :=
  ∀ cmd key value, q.command = some (some cmd, key, value) →
    ReadsWritten cfg q.host s.array cmd key value

/-- Every request of the list is careful in the state that it comes to. -/
def AllCareful : List TcpRequest → Store S → Prop
  | [], _ => True
  | q :: qs, s => q.Careful cfg s ∧ ∀ x, Returns (q.answer P cfg s) x → AllCareful qs x.store

/-- Both servers answer every request alike, or neither comes back from it. -/
def SameReplies : List TcpRequest → Store S → Store S → Prop
  | [], _, _ => True
  | q :: qs, s, s' => Alike
      (fun x y => x.ret = y.ret ∧ x.response = y.response ∧ SameReplies qs x.store y.store)
      (q.answer P cfg s) (q.answer P cfg s')

/-- `kvs_malloc` gives each node of the tree a block of its own. -/
def FreshBlocks (sentinel : Ptr) (qs : List TcpRequest) : Prop :=
  (null :: sentinel :: qs.filterMap fun q => q.host.node.node).Nodup

end TcpRequest

/-- The first store is that of a server whose memory has marks where nothing was written; `U` has the
blocks that are still to come. -/
structure Store.Marks (U : Ptr → Prop) (s s' : Store S) : Prop where
  array : Fills s.array s'.array
  tree : ∃ m, s.rbtree.Maps m ∧ s'.rbtree.Maps m
  free : ∀ p, U p → s.rbtree.Free p ∧ s'.rbtree.Free p
  list : ∃ W, SkipList.Agree W s.skiptable s'.skiptable
  files : s'.files = s.files

namespace Store.Marks

variable {U : Ptr → Prop} {w : Host} {s s' : Store S} {key value : Option CString}

theorem mono {U' : Ptr → Prop} (h : Marks U s s') (hU : ∀ p, U' p → U p) : Marks U' s s' :=
  ⟨h.array, h.tree, fun p hp => h.free p (hU p hp), h.list, h.files⟩

/-- The text of a reply is the same and the stores behind it go on alike. -/
def SameText (U : Ptr → Prop) (r r' : List UInt8 × Store S) : Prop := r.1 = r'.1 ∧ Marks U r.2 r'.2

/-- A call of the array behind which nothing else changes. -/
theorem arrayCall {α : Type*} {o o' : Option (α × KvsArray)} (h : Marks U s s')
    (ho : Option.Rel Fills.SameCall o o') (text : α → Option (List UInt8)) :
    Alike (SameText U)
      (fun _ : ℕ => o.bind fun r => (text r.1).bind fun t => some (t, { s with array := r.2 }))
      fun _ : ℕ => o'.bind fun r => (text r.1).bind fun t => some (t, { s' with array := r.2 }) := by
  apply Alike.of_rel_const
  refine rel_bind ho fun r r' hr => ?_
  rw [hr.1]
  cases text r'.1 with
  | none => exact .none
  | some t => exact .some ⟨rfl, hr.2, h.tree, h.free, h.list, h.files⟩

theorem listCall {f g : ℕ → Option (ℤ × SkipList S)} (h : Marks U s s') (hf : Growing f)
    (hg : Growing g) (hfg : ∀ n, Option.Rel SkipList.SameCall (f n) (g n)) (text : ℤ → List UInt8) :
    Alike (SameText U) (fun n => (f n).bind fun r => some (text r.1, { s with skiptable := r.2 }))
      fun n => (g n).bind fun r => some (text r.1, { s' with skiptable := r.2 }) := by
  refine (Alike.of_rel hf hg hfg).bind (Q := SameText U)
    (k := fun r _ => some (text r.1, { s with skiptable := r.2 }))
    (l := fun r _ => some (text r.1, { s' with skiptable := r.2 })) fun r r' hr => ?_
  exact .of_rel_const (.some ⟨by rw [hr.1], h.array, h.tree, h.free, hr.2, h.files⟩)

theorem rset (h : Marks U s s') (hw : ∀ p, w.node.node = some p → U p) (key value : Option CString) :
    Alike (SameText fun p => U p ∧ w.node.node ≠ some p)
      (fun n => (kvsRbtreeSet n s.rbtree w.node key value).bind fun r =>
        some (retText r.1 existText, { s with rbtree := r.2 }))
      fun n => (kvsRbtreeSet n s'.rbtree w.node key value).bind fun r =>
        some (retText r.1 existText, { s' with rbtree := r.2 }) := by
  have hsame : Marks (fun p => U p ∧ w.node.node ≠ some p) s s' := h.mono fun p hp => hp.1
  cases key with
  | none => exact .of_rel_const (.some ⟨rfl, hsame⟩)
  | some k =>
    cases value with
    | none => exact .of_rel_const (.some ⟨rfl, hsame⟩)
    | some v =>
      obtain ⟨array, ⟨node, room, room'⟩, hash, member, level, save⟩ := w
      cases node with
      | none => exact .of_rel_const .none
      | some p =>
        obtain ⟨m, hT, hT'⟩ := h.tree
        obtain ⟨hp, hp'⟩ := h.free p (hw p rfl)
        obtain ⟨T₁, hret, hmaps, hfree⟩ := hT.set_block hp room room' k v
        obtain ⟨T₂, hret', hmaps', hfree'⟩ := hT'.set_block hp' room room' k v
        have hleft := hret.bind (g := fun r _ => some (retText r.1 existText, { s with rbtree := r.2 }))
          (.some _)
        have hright := hret'.bind
          (g := fun r _ => some (retText r.1 existText, { s' with rbtree := r.2 })) (.some _)
        refine .of_returns hleft hright ⟨rfl, h.array, ⟨_, hmaps, hmaps'⟩, ?_, h.list, h.files⟩
        rintro q ⟨hq, hqp⟩
        have hne : q ≠ p := fun he => hqp (he ▸ rfl)
        exact ⟨hfree q hne (h.free q hq).1, hfree' q hne (h.free q hq).2⟩

theorem rget (h : Marks U s s') (key : Option CString) :
    Alike (SameText U)
      (fun n => (kvsRbtreeGet n s.rbtree key).bind fun v =>
        (getText v).bind fun result => some (result, s))
      fun n => (kvsRbtreeGet n s'.rbtree key).bind fun v =>
        (getText v).bind fun result => some (result, s') := by
  have htext : ∀ v, Alike (SameText U)
      (fun _ : ℕ => (getText v).bind fun result => some (result, s))
      fun _ : ℕ => (getText v).bind fun result => some (result, s') := by
    intro v
    apply Alike.of_rel_const
    cases getText v with
    | none => exact .none
    | some result => exact .some ⟨rfl, h⟩
  cases key with
  | none => exact htext .null
  | some k =>
    obtain ⟨m, hT, hT'⟩ := h.tree
    have hget : Alike Eq (fun n => kvsRbtreeGet n s.rbtree (some k))
        fun n => kvsRbtreeGet n s'.rbtree (some k) := .of_returns (hT.get k) (hT'.get k) rfl
    refine hget.bind (k := fun v _ => (getText v).bind fun result => some (result, s))
      (l := fun v _ => (getText v).bind fun result => some (result, s')) ?_
    rintro v _ rfl
    exact htext v

theorem save (h : Marks U s s') {cfg : ServerConfig} (w : Host)
    (hw : cfg.rdb.rdbEnabled = false ∨ w.save.opens = false) :
    Alike (SameText U) (fun _ : ℕ => runSave w s cfg) fun _ : ℕ => runSave w s' cfg := by
  apply Alike.of_rel_const
  have hsave : ∃ r, kvsRdbSave cfg.rdb w.save s.toEngines s.files cfg.rdbFile = some r ∧
      kvsRdbSave cfg.rdb w.save s'.toEngines s'.files cfg.rdbFile = some r := by
    rw [kvsRdbSave, kvsRdbSave, h.files]
    by_cases hoff : cfg.rdb.rdbEnabled = false
    · exact ⟨_, if_pos (by simp [hoff]), if_pos (by simp [hoff])⟩
    · have hopens := hw.resolve_left hoff
      have hon : ¬ (!cfg.rdb.rdbEnabled) = true := by simpa using hoff
      rw [if_neg hon, if_neg hon]
      exact ⟨_, if_pos (by simp [hopens]), if_pos (by simp [hopens])⟩
  obtain ⟨r, hr, hr'⟩ := hsave
  rw [runSave, runSave, hr, hr', Option.bind_some, Option.bind_some]
  exact .some ⟨rfl, h.array, h.tree, h.free, h.list, rfl⟩

variable [Comparisons S] (P : Scores S)

theorem zadd (h : Marks U s s') (w : Host) (key value : Option CString) :
    Alike (SameText U) (fun n => runZadd P n w s key value) fun n => runZadd P n w s' key value := by
  cases key with
  | none => exact .of_rel_const (.some ⟨rfl, h⟩)
  | some k =>
    cases value with
    | none => exact .of_rel_const (.some ⟨rfl, h⟩)
    | some v =>
      simp only [runZadd]
      cases v.strchr space with
      | none => exact .of_rel_const (.some ⟨rfl, h⟩)
      | some i =>
        obtain ⟨W, hW⟩ := h.list
        exact h.listCall (s.skiptable.zadd_growing w.member w.level k _ _)
          (s'.skiptable.zadd_growing w.member w.level k _ _) (fun n => hW.zadd n _ _ _ _ _)
          fun code => retText code existText

omit [Comparisons S] in
theorem zrem (h : Marks U s s') (key : Option CString) :
    Alike (SameText U) (fun n => runZrem n s key) fun n => runZrem n s' key := by
  cases key with
  | none => exact .of_rel_const (.some ⟨rfl, h⟩)
  | some k =>
    obtain ⟨W, hW⟩ := h.list
    exact h.listCall (s.skiptable.zrem_growing k) (s'.skiptable.zrem_growing k)
      (fun n => hW.zrem n k) fun code => if code = 0 then okText else noExistText

theorem zrange (h : Marks U s s') (key value : Option CString) :
    Alike (SameText U) (fun n => runZrange P n s key value) fun n => runZrange P n s' key value := by
  cases key with
  | none => exact .of_rel_const (.some ⟨rfl, h⟩)
  | some k =>
    cases value with
    | none => exact .of_rel_const (.some ⟨rfl, h⟩)
    | some v =>
      simp only [runZrange]
      cases P.sscanf v with
      | none => exact .of_rel_const (.some ⟨rfl, h⟩)
      | some range =>
        obtain ⟨W, hW⟩ := h.list
        have hsame : Alike Eq
            (fun n => kvsSkiptableZrangeEntries n s.skiptable range.1 range.2 100)
            (fun n => kvsSkiptableZrangeEntries n s'.skiptable range.1 range.2 100) := by
          refine .of_rel (s.skiptable.zrange_growing _ _ _) (s'.skiptable.zrange_growing _ _ _) ?_
          intro n
          rw [hW.zrange]
          exact rel_refl (fun _ => rfl) _
        refine hsame.bind (k := fun entries _ => some (zrangeText P entries [], s))
          (l := fun entries _ => some (zrangeText P entries [], s')) ?_
        rintro entries _ rfl
        exact .of_rel_const (.some ⟨rfl, h⟩)

/-- Every command that reads nothing unwritten. -/
theorem runCommand {cfg : ServerConfig} {w : Host} (h : Marks U s s')
    (hw : ∀ p, w.node.node = some p → U p) (cmd : Option Cmd) (key value : Option CString)
    (hread : ∀ c, cmd = some c → ReadsWritten cfg w s.array c key value) :
    Alike (SameText fun p => U p ∧ w.node.node ≠ some p)
      (fun n => KvStore.runCommand P n w s cfg cmd key value)
      fun n => KvStore.runCommand P n w s' cfg cmd key value := by
  have hU : Marks (fun p => U p ∧ w.node.node ≠ some p) s s' := h.mono fun p hp => hp.1
  cases cmd with
  | none => exact .of_rel_const (.some ⟨rfl, hU⟩)
  | some c =>
    replace hread := hread c rfl
    cases c with
    | set =>
      refine hU.arrayCall ?_ fun code => some (retText code existText)
      cases key with
      | none => exact h.array.bind_lock fun _ _ h' _ _ => .some ⟨rfl, h'.unlock⟩
      | some k =>
        cases value with
        | none => exact h.array.bind_lock fun _ _ h' _ _ => .some ⟨rfl, h'.unlock⟩
        | some v => exact h.array.set w.array v hread
    | get =>
      refine hU.arrayCall ?_ getText
      cases key with
      | none => exact h.array.bind_lock fun _ _ h' _ _ => .some ⟨rfl, h'⟩
      | some k => exact h.array.get hread
    | del =>
      refine hU.arrayCall ?_ fun code => some (retText code noExistText)
      cases key with
      | none => exact h.array.bind_lock fun _ _ h' _ _ => .some ⟨rfl, h'⟩
      | some k => exact h.array.del hread
    | mod =>
      refine hU.arrayCall ?_ fun code => some (retText code noExistText)
      cases key with
      | none => exact h.array.bind_lock fun _ _ h' _ _ => .some ⟨rfl, h'⟩
      | some k =>
        cases value with
        | none => exact h.array.bind_lock fun _ _ h' _ _ => .some ⟨rfl, h'⟩
        | some v => exact h.array.mod w.array.value v hread
    | exist =>
      refine hU.arrayCall ?_ fun code => some (if code = 0 then existText else noExistText)
      cases key with
      | none => exact h.array.bind_lock fun _ _ h' _ _ => .some ⟨rfl, h'.unlock⟩
      | some k => exact h.array.exist hread
    | save => exact hU.save w hread
    | rset => exact h.rset hw key value
    | rget => exact hU.rget key
    | hset =>
      cases key with
      | none => exact .of_rel_const (.some ⟨rfl, hU⟩)
      | some k =>
        cases value with
        | none => exact .of_rel_const (.some ⟨rfl, hU⟩)
        | some v => exact hread.elim
    | hget =>
      cases key with
      | none => exact .of_rel_const (.some ⟨rfl, hU⟩)
      | some k => exact hread.elim
    | zadd => exact hU.zadd P w key value
    | zrem => exact hU.zrem key
    | zrange => exact hU.zrange P key value
    | rdel | rmod | rexist | hdel | hmod | hexist => exact .of_rel_const (.some ⟨rfl, hU⟩)

variable {P} in
/-- A request that reads nothing unwritten is answered alike. -/
theorem answer {cfg : ServerConfig} {q : TcpRequest} (h : Marks U s s')
    (hw : ∀ p, q.host.node.node = some p → U p) (hq : q.Careful cfg s) :
    Alike (fun x y => x.ret = y.ret ∧ x.response = y.response ∧
        Marks (fun p => U p ∧ q.host.node.node ≠ some p) x.store y.store)
      (q.answer P cfg s) (q.answer P cfg s') := by
  have hU : Marks (fun p => U p ∧ q.host.node.node ≠ some p) s s' := h.mono fun p hp => hp.1
  unfold TcpRequest.answer kvsTcpProtocol
  unfold TcpRequest.Careful TcpRequest.command at hq
  by_cases hshort : q.len < tcpHeaderSize
  · simp only [if_pos hshort]
    exact .of_rel_const (.some ⟨rfl, rfl, hU⟩)
  simp only [if_neg hshort]
  by_cases hbuffer : q.buffer.length < q.len
  · simp only [if_pos hbuffer]
    exact .of_rel_const .none
  simp only [if_neg hbuffer]
  by_cases hheader : (parseTcpHeader q.buffer).1 < 0
  · simp only [if_pos hheader]
    exact .of_rel_const (.some ⟨rfl, rfl, hU⟩)
  simp only [if_neg hheader]
  by_cases hdata : q.len < tcpHeaderSize + (parseTcpHeader q.buffer).2.dataLen
  · simp only [if_pos hdata]
    exact .of_rel_const (.some ⟨rfl, rfl, hU⟩)
  simp only [if_neg hdata]
  rw [if_neg (not_or.mpr ⟨hshort, hbuffer⟩)] at hq
  simp only [if_neg (not_or.mpr ⟨hheader, hdata⟩)] at hq
  cases hsplit : splitPayload q.buffer (parseTcpHeader q.buffer).2.dataLen with
  | none => exact .of_rel_const .none
  | some p =>
    rw [hsplit] at hq
    simp only [Option.bind_some]
    have hrun := h.runCommand P hw (Cmd.ofCode (parseTcpHeader q.buffer).2.cmdType) p.key p.value
      fun c hc => hq c p.key p.value (by rw [← hc]; rfl)
    refine hrun.bind (Q := fun x y : Handled S => x.ret = y.ret ∧ x.response = y.response ∧
      Marks (fun p => U p ∧ q.host.node.node ≠ some p) x.store y.store) (fun r r' hr => ?_)
    refine .of_rel_const (.some ⟨?_, ?_, hr.2⟩)
    · rw [hr.1]
    · rw [hr.1]

end Store.Marks

namespace TcpRequest

variable [Comparisons S] {P : Scores S} {cfg : ServerConfig} {qs : List TcpRequest}
  {s s' t : Store S} {sentinel header : Ptr} {files : Files}

theorem sameReplies_of_marks {U : Ptr → Prop} (h : Store.Marks U s s')
    (hcareful : AllCareful P cfg qs s)
    (hfresh : (qs.filterMap fun q => q.host.node.node).Nodup)
    (hU : ∀ p ∈ qs.filterMap fun q => q.host.node.node, U p) : SameReplies P cfg qs s s' := by
  induction qs generalizing s s' U with
  | nil => trivial
  | cons q qs ih =>
    obtain ⟨hq, hnext⟩ := hcareful
    have hnode : ∀ p, q.host.node.node = some p → U p := by
      intro p hp
      exact hU p (List.mem_filterMap.mpr ⟨q, List.mem_cons_self, hp⟩)
    have hrest : (qs.filterMap fun q => q.host.node.node).Nodup ∧
        ∀ p ∈ qs.filterMap fun q => q.host.node.node, U p ∧ q.host.node.node ≠ some p := by
      cases hp : q.host.node.node with
      | none =>
        simp only [List.filterMap_cons, hp] at hfresh hU
        exact ⟨hfresh, fun p hp => ⟨hU p hp, fun he => by cases he⟩⟩
      | some b =>
        simp only [List.filterMap_cons, hp] at hfresh hU
        obtain ⟨hb, hfresh⟩ := List.nodup_cons.mp hfresh
        refine ⟨hfresh, fun p hp => ⟨hU p (List.mem_cons_of_mem b hp), ?_⟩⟩
        rintro ⟨⟩
        exact hb hp
    obtain ⟨x, y, hx, hy, hret, hresponse, hmarks⟩ | hstuck := h.answer (P := P) hnode hq
    · exact .of_returns hx hy ⟨hret, hresponse, ih hmarks (hnext x hx) hrest.1 hrest.2⟩
    · exact .inr hstuck

theorem SameReplies.symm (h : SameReplies P cfg qs s s') : SameReplies P cfg qs s' s := by
  induction qs generalizing s s' with
  | nil => trivial
  | cons q qs ih => exact Alike.symm h fun x y hxy => ⟨hxy.1.symm, hxy.2.1.symm, ih hxy.2.2⟩

theorem SameReplies.trans (h : SameReplies P cfg qs s s') (h' : SameReplies P cfg qs s' t) :
    SameReplies P cfg qs s t := by
  induction qs generalizing s s' t with
  | nil => trivial
  | cons q qs ih =>
    refine Alike.trans h h' fun x y z hxy hyz => ?_
    exact ⟨hxy.1.trans hyz.1, hxy.2.1.trans hyz.2.1, ih hxy.2.2 hyz.2.2⟩

end TcpRequest

variable [Comparisons S] [Zero S]

omit [Comparisons S] in
/-- Marks stand for all that the memory can hold. -/
theorem initKvengine_marks (files : Files) {sentinel : Ptr} (header : Ptr) (hs : sentinel ≠ null)
    (mem : FirstMemory S) : Store.Marks (fun p => p ≠ null ∧ p ≠ sentinel)
      (initKvengine files sentinel header unwrittenMemory)
      (initKvengine files sentinel header mem) where
  array := ⟨rfl, rfl, fun _ hi => absurd rfl hi⟩
  tree := ⟨_, .create hs, .create hs⟩
  free := by
    have hfree : ∀ M p, p ≠ null → p ≠ sentinel → (kvsRbtreeCreate M sentinel).Free p := by
      intro M p hnull hnil
      rw [(Rbtree.Holds.create (M := M) hs).repr.free_iff]
      simpa using ⟨hnull, hnil⟩
    exact fun p hp => ⟨hfree _ p hp.1 hp.2, hfree _ p hp.1 hp.2⟩
  list := ⟨_, .create _ _ header⟩
  files := rfl

variable {P : Scores S} {cfg : ServerConfig} {files : Files} {sentinel header : Ptr}
  {mem mem' : FirstMemory S}

/-- The array and the tree are empty at first, whatever their memory holds. -/
theorem initKvengine_get (hs : sentinel ≠ null) {e : Engine} (he : e ≠ .hash) (n : ℕ) (w : Host)
    (k : CString) :
    runCommand P (n + 1) w (initKvengine files sentinel header mem) cfg
        (some ((Query.get k).cmd e)) (some k) none =
      some (noExistText, initKvengine files sentinel header mem) := by
  cases e with
  | array => rfl
  | hash => exact absurd rfl he
  | tree =>
    have hsearch : rbtreeSearch (n + 1) (kvsRbtreeCreate mem.tree sentinel) k = some sentinel :=
      if_neg (not_not.mpr rfl)
    have hget : kvsRbtreeGet (n + 1) (kvsRbtreeCreate mem.tree sentinel) (some k) = some .null := by
      rw [kvsRbtreeGet, hsearch, Option.bind_some, if_neg hs]
      exact if_pos rfl
    show ((kvsRbtreeGet (n + 1) (kvsRbtreeCreate mem.tree sentinel) (some k)).bind _) = _
    rw [hget]
    rfl

/-- Two servers that start from different memory answer the same requests alike, as long as these read
no slot of the array or of the hash table that was never written; and right after the start `GET` and
`RGET` of every key answer `NO EXIST`. -/
theorem kvsTcpProtocol_forgets_memory (P : Scores S) (cfg : ServerConfig) (files : Files)
    (sentinel header : Ptr) (hs : sentinel ≠ null) (mem mem' : FirstMemory S)
    (qs : List TcpRequest) (hfresh : TcpRequest.FreshBlocks sentinel qs)
    (hcareful : TcpRequest.AllCareful P cfg qs (initKvengine files sentinel header unwrittenMemory)) :
    TcpRequest.SameReplies P cfg qs (initKvengine files sentinel header mem)
      (initKvengine files sentinel header mem') ∧
    ∀ (r : EngineRequest) k w rest len, r.WellFormed → r.query = .get k → r.engine ≠ .hash →
      rest ≠ [] → r.packet.length ≤ len → len ≤ (r.packet ++ rest).length →
      ∃ x, Returns (fun n => kvsTcpProtocol P cfg n w (initKvengine files sentinel header mem)
          (r.packet ++ rest) len) x ∧
        x.response = buildTcpResponse r.cmdType r.seqId noExistText := by
  obtain ⟨hnull, hfresh⟩ := List.nodup_cons.mp hfresh
  obtain ⟨hsentinel, hfresh⟩ := List.nodup_cons.mp hfresh
  have hU : ∀ p ∈ qs.filterMap fun q => q.host.node.node, p ≠ null ∧ p ≠ sentinel := by
    intro p hp
    refine ⟨?_, ?_⟩
    · rintro rfl
      exact hnull (List.mem_cons_of_mem _ hp)
    · rintro rfl
      exact hsentinel hp
  have hmarked : ∀ mem, TcpRequest.SameReplies P cfg qs
      (initKvengine files sentinel header unwrittenMemory) (initKvengine files sentinel header mem) :=
    fun mem => TcpRequest.sameReplies_of_marks (initKvengine_marks files header hs mem) hcareful hfresh hU
  refine ⟨(hmarked mem).symm.trans (hmarked mem'), ?_⟩
  intro r k w rest len hr hk he hrest hle hlen
  obtain ⟨buffer, hsplit⟩ := hr.query.split r.cmdType r.seqId r.flags hrest
  rw [hk] at hsplit
  refine ⟨r.handled ⟨buffer, some k, none⟩ (noExistText, initKvengine files sentinel header mem), ?_, rfl⟩
  apply Returns.last
  intro n
  have hpacket : splitPayload (r.packet ++ rest) r.query.payload.length =
      some ⟨buffer, some k, none⟩ := by
    rw [EngineRequest.packet, hk]
    exact hsplit
  rw [hr.kvsTcpProtocol hle hlen, hpacket, Option.bind_some, hk, initKvengine_get hs he]
  rfl

section Letters

/-- A request about one letter, in a buffer with a byte behind the packet. -/
def letterRequest (e : Engine) (q : Query) (node : Ptr) : TcpRequest where
  host := { roomyHost with node := ⟨some node, true, true⟩ }
  buffer := (EngineRequest.mk e q 0 0).packet ++ [0]
  len := ((EngineRequest.mk e q 0 0).packet ++ [0]).length

/-- A table of which every slot holds the same chain. -/
def filledMemory (chain : List HashNode) : FirstMemory ℕ :=
  { unwrittenMemory with slots := fun _ => some chain }

/-- A key is set in the tree and read again. -/
theorem kvsTcpProtocol_forgets_memory_letter :
    TcpRequest.SameReplies plainScores ⟨checkedConfig, .empty⟩
      [letterRequest .tree setLetter 5, letterRequest .tree getLetter 6]
      (initKvengine (fun _ => none) 1 2 (filledMemory []))
      (initKvengine (fun _ => none) 1 2 unwrittenMemory) := by
  have hfresh : TcpRequest.FreshBlocks 1
      [letterRequest .tree setLetter 5, letterRequest .tree getLetter 6] :=
    (by decide : [null, 1, 5, 6].Nodup)
  refine (kvsTcpProtocol_forgets_memory plainScores ⟨checkedConfig, .empty⟩ (fun _ => none) 1 2
    (by decide) (filledMemory []) unwrittenMemory _ hfresh ?_).1
  refine ⟨?_, fun x _ => ⟨?_, fun _ _ => trivial⟩⟩
  · intro c k v h
    cases h
    trivial
  · intro c k v h
    cases h
    trivial

/-- `HGET a` right after the start: an empty chain, a chain that the memory held before, or a pointer
that leads nowhere. -/
theorem kvsHashGet_reads_unwritten :
    ¬ TcpRequest.SameReplies plainScores ⟨checkedConfig, .empty⟩ [letterRequest .hash getLetter 5]
      (initKvengine (fun _ => none) 1 2 (filledMemory []))
      (initKvengine (fun _ => none) 1 2 (filledMemory [⟨.read [97], .str (.read [98])⟩])) := by
  intro h
  have hleft : Returns ((letterRequest .hash getLetter 5).answer plainScores ⟨checkedConfig, .empty⟩
      (initKvengine (fun _ => none) 1 2 (filledMemory []))) _ := .of_eq fun n => rfl
  have hright : Returns ((letterRequest .hash getLetter 5).answer plainScores ⟨checkedConfig, .empty⟩
      (initKvengine (fun _ => none) 1 2 (filledMemory [⟨.read [97], .str (.read [98])⟩]))) _ :=
    .of_eq fun n => rfl
  obtain ⟨x, y, hx, hy, -, hresponse, -⟩ | ⟨hstuck, -⟩ := h
  · rw [← hleft.unique hx, ← hright.unique hy] at hresponse
    revert hresponse
    decide
  · exact hstuck.not_returns hleft

end Letters

end KvStore
