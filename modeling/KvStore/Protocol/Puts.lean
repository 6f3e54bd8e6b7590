import KvStore.Protocol.Replies
import KvStore.Rdb.Durable

/-! What `SET` and `HSET` requests with any payload leave in the engines, and when a snapshot of
it brings everything back. -/
namespace KvStore
open KeyValue

/-- A `set` of the array with whatever arguments and memory: nothing, or one step of the map. -/
theorem KvsArray.Dense.set_any {a a' : KvsArray} {m : CString → Option CString} {p : ArrayAlloc}
    {key value : Option CString} {c : ℤ} (ha : a.Dense m)
    (hs : kvsArraySet a p key value = some (c, a')) :
    a'.Dense m ∨ ∃ k v, key = some k ∧ value = some v ∧ a'.Dense (next m (.set k v)) := by
  have hnone : kvsArraySet a p key value = some (-1, a) → a'.Dense m := by
    intro h
    rw [h] at hs
    cases hs
    exact ha
  have hunlock : ({ a with locked := true } : KvsArray).unlock = a := by
    obtain ⟨t, n, l⟩ := a
    have hl : l = false := ha.unlocked
    rw [hl]
    rfl
  have hlock : a.lock = some { a with locked := true } := by
    rw [lock, ha.unlocked]
    rfl
  cases key with
  | none =>
    left
    apply hnone
    simp [kvsArraySet, hlock, hunlock]
  | some k =>
    cases value with
    | none =>
      left
      apply hnone
      simp [kvsArraySet, hlock, hunlock]
    | some v =>
      obtain ⟨-, h⟩ | ⟨-, -, h⟩ | ⟨-, -, -, h⟩ | ⟨hn, -, hk, hv, -⟩ :=
        ha.toTidy.set_cases (m := p) (v := v) (ha.unobstructed true k)
      · exact .inl (hnone h)
      · rw [h] at hs
        cases hs
        exact .inl ha
      · rw [h] at hs
        cases hs
        exact .inl ha
      · obtain ⟨a'', h, ha', -⟩ := ha.set (p := p) (by cases p; simp_all) hn k v
        rw [h] at hs
        cases hs
        exact .inr ⟨k, v, rfl, rfl, ha'⟩

/-- A `set` of the hash table that comes back: nothing, or one step of the map. -/
theorem HashTable.Maps.set_any {t t' : HashTable} {m : CString → Option CString} {p : HashAlloc}
    {key value : Option CString} {c : ℤ} (ht : t.Maps m) (hkey : ∀ k, key = some k → InRange k)
    (hs : kvsHashSet t p key value = some (c, t')) :
    t'.Maps m ∨ ∃ k v, key = some k ∧ value = some v ∧ t'.Maps (next m (.set k v)) := by
  cases key with
  | none =>
    cases hs
    exact .inl ht
  | some k =>
    cases value with
    | none =>
      cases hs
      exact .inl ht
    | some v =>
      have hk := hkey k rfl
      obtain ⟨i, l, A, B, hb⟩ := ht.bucket hk
      cases hloc : locate k l with
      | some r =>
        simp only [kvsHashSet, hb.chainOf, Option.bind_some, hloc] at hs
        cases hs
        exact .inl ht
      | none =>
        have hroom : p = ⟨true, true, true⟩ := by
          simp only [kvsHashSet, hb.chainOf, Option.bind_some, hloc] at hs
          obtain ⟨node, hnode, -⟩ := Option.bind_eq_some_iff.mp hs
          obtain ⟨b₁, b₂, b₃⟩ := p
          cases b₁ <;> cases b₂ <;> cases b₃ <;> first | rfl | cases hnode
        obtain ⟨t'', h, ht''⟩ := ht.set hk v
        rw [hroom, h] at hs
        cases hs
        exact .inr ⟨k, v, rfl, rfl, ht''⟩

/-- The keys belong to a slot of the hash table, and keys and values fit a payload. -/
def Admitted (m : CString → Option CString) : Prop :=
  ∀ k v, m k = some v → HashTable.InRange k ∧ k.length ≤ 1024 ∧ v.length ≤ 1024

theorem Admitted.next {m : CString → Option CString} {k v : CString} (h : Admitted m)
    (hkv : HashTable.InRange k ∧ k.length ≤ 1024 ∧ v.length ≤ 1024) :
    Admitted (next m (.set k v)) := by
  intro j u hj
  rw [next_set] at hj
  obtain hm | ⟨-, hm⟩ := Option.or_eq_some_iff.mp hj
  · exact h j u hm
  · by_cases hjk : k = j
    · rw [if_pos hjk, Option.some.injEq] at hm
      rwa [← hjk, ← hm]
    · rw [if_neg hjk] at hm
      cases hm

/-- What the engines are while only `SET` and `HSET` requests come in. -/
def Engines.Stocked (e : Engines) : Prop :=
  ∃ ma mh, e.Keep ma mh ∧ Admitted ma ∧ Admitted mh

theorem Engines.Keep.fits {e : Engines} {ma mh : CString → Option CString} (h : e.Keep ma mh)
    (ha : Admitted ma) (hh : Admitted mh) : ∀ r ∈ e.records, r.Fits := by
  intro r hr
  obtain hr | hr := List.mem_append.mp hr
  · have hm : ma r.key = some r.value :=
      (h.array.represents.mem_iff _ _).mpr (List.mem_map.mpr ⟨r, hr, rfl⟩)
    obtain ⟨-, hk, hv⟩ := ha _ _ hm
    exact ⟨.inl (KvsArray.records_type hr), hk, hv⟩
  · have hm : mh r.key = some r.value :=
      (h.hash.represents_records.mem_iff _ _).mpr (List.mem_map.mpr ⟨r, hr, rfl⟩)
    obtain ⟨hi, hk, hv⟩ := hh _ _ hm
    exact ⟨.inr ⟨HashTable.records_type hr, hi⟩, hk, hv⟩

section Puts

variable {S : Type*} [Comparisons S] {P : Scores S} {cfg : ServerConfig} {s s' : Store S}
  {q : Received} {r : Handled S}

/-- A packet that asks for `SET` or `HSET`, with a key of 7-bit characters. -/
structure Received.Put (q : Received) : Prop where
  accepted : Accepted q.buffer q.len
  cmd : Cmd.ofCode (TcpHeader.read q.buffer).cmdType = some .set ∨
    Cmd.ofCode (TcpHeader.read q.buffer).cmdType = some .hset
  ascii : ∀ p k, splitPayload q.buffer (TcpHeader.read q.buffer).dataLen = some p →
    p.key = some k → ∀ b ∈ k.bytes, b < 128

/-- Such a request is handled. -/
def Puts (P : Scores S) (cfg : ServerConfig) (s : Store S) (q : Received) (r : Handled S)
    (s' : Store S) : Prop :=
  q.Put ∧ serve P cfg s q = some (r, s')

theorem Puts.stocked (hs : Puts P cfg s q r s') (h : s.toEngines.Stocked) :
    s'.toEngines.Stocked := by
  obtain ⟨hq, hserve⟩ := hs
  obtain ⟨ma, mh, hkeep, ha, hh⟩ := h
  obtain ⟨x, hx, he⟩ := Option.map_eq_some_iff.mp hserve
  cases he
  rw [hq.accepted.kvsTcpProtocol] at hx
  obtain ⟨p, hp, hx⟩ := Option.bind_eq_some_iff.mp hx
  obtain ⟨c, hc, hx⟩ := Option.bind_eq_some_iff.mp hx
  cases hx
  have hlen := hq.accepted.dataLen_le
  obtain ⟨hklen, hvlen⟩ := splitPayload_length hp
  have hrange : ∀ k, p.key = some k → HashTable.InRange k := by
    intro k hk
    exact HashTable.inRange_of_ascii (hq.ascii p k hp hk) ((hklen k hk).trans hlen)
  have hallow : ∀ k v, p.key = some k → p.value = some v →
      HashTable.InRange k ∧ k.length ≤ 1024 ∧ v.length ≤ 1024 := by
    intro k v hk hv
    exact ⟨hrange k hk, (hklen k hk).trans hlen, (hvlen v hv).le.trans hlen⟩
  obtain hcmd | hcmd := hq.cmd
  · rw [hcmd] at hc
    obtain ⟨⟨code, a⟩, hset, hc⟩ := Option.bind_eq_some_iff.mp hc
    cases hc
    obtain ha' | ⟨k, v, hk, hv, ha'⟩ := hkeep.array.set_any hset
    · exact ⟨ma, mh, ⟨ha', hkeep.hash, hkeep.tree⟩, ha, hh⟩
    · exact ⟨_, mh, ⟨ha', hkeep.hash, hkeep.tree⟩, ha.next (hallow k v hk hv), hh⟩
  · rw [hcmd] at hc
    obtain ⟨⟨code, t⟩, hset, hc⟩ := Option.bind_eq_some_iff.mp hc
    cases hc
    obtain ht' | ⟨k, v, hk, hv, ht'⟩ := hkeep.hash.set_any hrange hset
    · exact ⟨ma, mh, ⟨hkeep.array, ht', hkeep.tree⟩, ha, hh⟩
    · exact ⟨ma, _, ⟨hkeep.array, ht', hkeep.tree⟩, ha, hh.next (hallow k v hk hv)⟩

/-- The engines as they are created. -/
structure Engines.Fresh (e : Engines) : Prop where
  array : e.array = kvsArrayCreate
  rbtree : ∃ T p, e.rbtree = kvsRbtreeCreate T p
  hash : e.hash = kvsHashCreate fun _ => some []

theorem Engines.Fresh.keep {e : Engines} (h : e.Fresh) : e.Keep (fun _ => none) fun _ => none := by
  refine ⟨h.array ▸ .create, h.hash ▸ .create, ?_⟩
  obtain ⟨T, p, ht⟩ := h.rbtree
  rw [rbtreeRecords_eq_nil, ht]
  exact .inr rfl

theorem Puts.run {log : List (Received × Handled S)} (hs : s.toEngines.Fresh)
    (hrun : Runs (Puts P cfg) s log s') : s'.toEngines.Stocked := by
  have hnone : Admitted fun _ => none := by
    intro k v h
    cases h
  apply hrun.keeps (P := fun s => s.toEngines.Stocked) ⟨_, _, hs.keep, hnone, hnone⟩
  intro s s' q r h hstep
  exact hstep.stocked h

/-- After every run of `SET` and `HSET` requests from fresh engines, a snapshot without checksum
brings all values back exactly when saving is switched on, no key is empty and the entries take
less than 2^32 bytes (or when saving is switched off and there is nothing to save). -/
theorem kvsRdb_durable_iff (P : Scores S) (cfg : ServerConfig) {io : SaveIO} {lio : LoadIO}
    {fresh : Engines} {w : ℕ → EngineAlloc} {log : List (Received × Handled S)} (hs : s.toEngines.Fresh)
    (hrun : Runs (Puts P cfg) s log s') (hfresh : fresh.Fresh) (hcrc : cfg.rdb.rdbCrc64 = false)
    (hopen : io.opens = true) (hroom : ∀ j, lio.room j = (true, true)) (hw : Roomy w) (n : ℕ)
    (fs : Files) (filename : CString) :
    Durable cfg.rdb io lio n w fresh s'.toEngines fs filename ↔
      s'.toEngines.Restorable cfg.rdb := by
  obtain ⟨ma, mh, hkeep, ha, hh⟩ := Puts.run hs hrun
  exact hkeep.durable_iff hfresh.keep (by rw [hfresh.array]; rfl) (hkeep.fits ha hh) hcrc hopen
    hroom hw

end Puts

theorem startStore_fresh : startStore.toEngines.Fresh := ⟨rfl, ⟨Rbtree.blank, 1, rfl⟩, rfl⟩

/-- A server without checksum. -/
def plainConfig : ServerConfig := ⟨⟨true, false, false, false, .empty⟩, .empty⟩

def roomyAlloc (_ : ℕ) : EngineAlloc := ⟨⟨true, true⟩, ⟨some 2, true, true⟩, ⟨true, true, true⟩⟩

theorem roomyAlloc_roomy : Roomy roomyAlloc := fun _ => ⟨rfl, rfl⟩

/-- A `SET` with a payload, from a buffer with one more byte. -/
def setRequest (payload : List UInt8) : Received :=
  ⟨0, roomyHost, packet Cmd.set.code 0 0 payload ++ [0], tcpHeaderSize + payload.length⟩

/-- The first `SET` of a started server. -/
theorem setRequest_puts (payload : List UInt8) (key value : CString)
    (hlen : payload.length ≤ 1024) (hsplit : ∃ buffer,
      splitPayload (packet Cmd.set.code 0 0 payload ++ [0]) payload.length =
        some ⟨buffer, some key, some value⟩) (hkey : ∀ b ∈ key.bytes, b < 128) :
    ∃ r s', Runs (Puts plainScores plainConfig) startStore [(setRequest payload, r)] s' ∧
      s'.toEngines.records = [⟨0, key, value⟩] := by
  obtain ⟨buffer, hsplit⟩ := hsplit
  have hread : TcpHeader.read (packet Cmd.set.code 0 0 payload ++ [0]) =
      ⟨tcpMagic, tcpVersion, Cmd.set.code, payload.length, 0, 0⟩ :=
    read_packet (by decide) (by decide) (by decide) hlen [0]
  have hle : (packet Cmd.set.code 0 0 payload).length ≤ tcpHeaderSize + payload.length := by
    rw [length_packet]
  have hlen' : tcpHeaderSize + payload.length ≤ (packet Cmd.set.code 0 0 payload ++ [0]).length := by
    rw [List.length_append, length_packet]
    exact Nat.le_add_right _ _
  have hacc : Accepted (packet Cmd.set.code 0 0 payload ++ [0]) (tcpHeaderSize + payload.length) :=
    packet_accepted (by decide) (by decide) (by decide) hlen hle hlen'
  have hput : (setRequest payload).Put := by
    refine ⟨hacc, .inl ?_, ?_⟩
    · rw [setRequest, hread]
      rfl
    · intro p k hp hk
      rw [setRequest, hread] at hp
      dsimp only at hp
      rw [hsplit] at hp
      cases hp
      cases hk
      exact hkey
  obtain ⟨x, hx, hs⟩ : ∃ x : Handled ℕ, kvsTcpProtocol plainScores plainConfig 0 roomyHost startStore
      (packet Cmd.set.code 0 0 payload ++ [0]) (tcpHeaderSize + payload.length) = some x ∧
        x.store = { startStore with array := kvsArrayCreate.filled 0 key value } := by
    rw [hacc.kvsTcpProtocol, hread]
    dsimp only
    rw [hsplit, Option.bind_some]
    exact ⟨_, rfl, rfl⟩
  have hserve : serve plainScores plainConfig startStore (setRequest payload) = some (x, x.store) := by
    rw [serve, setRequest, hx]
    rfl
  refine ⟨x, x.store, .cons ⟨hput, hserve⟩ (.nil _), ?_⟩
  have hhash : HashTable.records (kvsHashCreate fun _ => some []) = [] := by
    simp [HashTable.records, HashTable.entries, HashTable.chain, kvsHashCreate]
  rw [hs, Engines.records]
  change _ ++ HashTable.records (kvsHashCreate fun _ => some []) = _
  rw [hhash, List.append_nil]
  rfl

/-- `SET a b` comes back. -/
theorem kvsRdb_durable_iff_one : ∃ r s',
    Runs (Puts plainScores plainConfig) startStore [(setRequest [97, 32, 98], r)] s' ∧
    Durable plainConfig.rdb readyIO ⟨true, fun _ => (true, true)⟩ 0 roomyAlloc startStore.toEngines
      s'.toEngines (fun _ => none) .empty := by
  obtain ⟨r, s', hrun, hrecords⟩ := setRequest_puts [97, 32, 98] (.read [97]) (.read [98])
    (by decide) ⟨_, rfl⟩ (List.forall_mem_singleton.mpr (by decide))
  refine ⟨r, s', hrun, (kvsRdb_durable_iff _ _ startStore_fresh hrun startStore_fresh rfl rfl
    (fun _ => rfl) roomyAlloc_roomy 0 _ _).mpr (.inl ⟨rfl, ?_, ?_⟩)⟩
  · rw [hrecords]
    decide
  · rw [hrecords]
    decide

/-- A payload that starts with its space stores an empty key, which is saved and not loaded. -/
theorem kvsRdbLoad_drops_empty_key : ∃ r s',
    Runs (Puts plainScores plainConfig) startStore [(setRequest [32, 98], r)] s' ∧
    ¬ Durable plainConfig.rdb readyIO ⟨true, fun _ => (true, true)⟩ 0 roomyAlloc
      startStore.toEngines s'.toEngines (fun _ => none) .empty := by
  obtain ⟨r, s', hrun, hrecords⟩ := setRequest_puts [32, 98] .empty (.read [98])
    (by decide) ⟨_, rfl⟩ (List.forall_mem_nil _)
  refine ⟨r, s', hrun, ?_⟩
  obtain ⟨ma, mh, hkeep, ha, hh⟩ := Puts.run startStore_fresh hrun
  rw [hkeep.durable_iff startStore_fresh.keep rfl (hkeep.fits ha hh) rfl rfl (fun _ => rfl)
    roomyAlloc_roomy]
  rintro (⟨-, hne, -⟩ | ⟨hno, -⟩)
  · exact hne ⟨0, .empty, .read [98]⟩ (by rw [hrecords]; exact List.mem_singleton_self _) rfl
  · cases hno

end KvStore
