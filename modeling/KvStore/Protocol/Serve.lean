import KvStore.Array.Dense
import KvStore.Hash.Range
import KvStore.Protocol.Payload
import KvStore.Rbtree.Map

/-! The `SET` and `GET` commands that the protocol has for all three engines: the packets that
ask for them, and one step of the handler on each engine against a finite map. -/
namespace KvStore
open KeyValue Fuel

inductive Engine
  | array
  | tree
  | hash
  deriving DecidableEq

/-- What a client asks of an engine. -/
inductive Query
  | set (k v : CString)
  | get (k : CString)

namespace Query

def key : Query → CString
  | set k _ => k
  | get k => k

def value : Query → Option CString
  | set _ v => some v
  | get _ => none

def call : Query → Call CString CString
  | set k v => .set k v
  | get k => .get k

/-- Key and value with a space between them, or the key alone. -/
def payload : Query → List UInt8
  | set k v => k.bytes ++ space :: v.bytes
  | get k => k.bytes

/-- A key of 7-bit characters, not empty and without a space, and a payload that fits. -/
structure Valid (q : Query) : Prop where
  nonempty : q.key.bytes ≠ []
  ascii : ∀ b ∈ q.key.bytes, b < 128
  nospace : space ∉ q.key.bytes
  fits : q.payload.length ≤ 1024

theorem Valid.key_le {q : Query} (h : q.Valid) : q.key.length ≤ 1024 := by
  have hfits := h.fits
  cases q with
  | set k v =>
    simp only [payload, List.length_append, List.length_cons] at hfits
    simp only [key, CString.length]
    omega
  | get k => exact hfits

/-- A value leaves room for its NUL in the result. -/
theorem Valid.value_lt {k v : CString} (h : (set k v).Valid) : v.length < resultSize := by
  have hfits := h.fits
  have hne := List.length_pos_iff.mpr h.nonempty
  simp only [payload, List.length_append, List.length_cons, key] at hfits hne
  rw [CString.length, resultSize]
  omega

theorem Valid.payload_pos {q : Query} (h : q.Valid) : 0 < q.payload.length := by
  have hne := List.length_pos_iff.mpr h.nonempty
  cases q with
  | set k v =>
    simp only [key] at hne
    simp only [payload, List.length_append]
    omega
  | get k => exact hne

theorem payload_nonzero (q : Query) : 0 ∉ q.payload := by
  cases q with
  | set k v =>
    have hk := k.nonzero
    have hv := v.nonzero
    simp only [payload, List.mem_append, List.mem_cons]
    rintro (h | h | h)
    · exact hk h
    · exact absurd h (by decide)
    · exact hv h
  | get k => exact k.nonzero

/-- The parser finds the key and the value again. -/
theorem Valid.split {q : Query} (h : q.Valid) (cmd seq flags : ℕ) {rest : List UInt8}
    (hrest : rest ≠ []) : ∃ buffer,
    splitPayload (packet cmd seq flags q.payload ++ rest) q.payload.length =
      some ⟨buffer, some q.key, q.value⟩ := by
  have hlen : tcpHeaderSize + q.payload.length <
      (packet cmd seq flags q.payload ++ rest).length := by
    have := List.length_pos_iff.mpr hrest
    rw [List.length_append, length_packet]
    omega
  have hdata : ((packet cmd seq flags q.payload ++ rest).drop tcpHeaderSize).take q.payload.length =
      q.payload := by
    rw [packet, List.append_assoc, List.drop_left' (TcpHeader.length_bytes _), List.take_left']
    rfl
  have hread : CString.read q.payload = ⟨q.payload, q.payload_nonzero⟩ :=
    CString.read_bytes ⟨q.payload, q.payload_nonzero⟩
  rw [splitPayload_eq h.payload_pos hlen, hdata, hread]
  cases q with
  | set k v =>
    have hchr : CString.strchr ⟨(set k v).payload, (set k v).payload_nonzero⟩ space =
        some k.bytes.length := CString.strchr_append h.nospace rfl
    have hkey : CString.truncate ⟨(set k v).payload, (set k v).payload_nonzero⟩ k.bytes.length = k := by
      apply CString.ext
      simp [CString.truncate, payload]
    have hvalue : CString.drop ⟨(set k v).payload, (set k v).payload_nonzero⟩ (k.bytes.length + 1) =
        v := by
      apply CString.ext
      simp [CString.drop, payload]
    simp only [hchr, hkey, hvalue]
    exact ⟨_, rfl⟩
  | get k =>
    have hchr : CString.strchr ⟨(get k).payload, (get k).payload_nonzero⟩ space = none := by
      rw [CString.strchr, List.findIdx?_eq_none_iff]
      intro x hx
      have hne : x ≠ space := fun he => h.nospace (he ▸ hx)
      simpa using hne
    exact ⟨_, by simp only [hchr]; rfl⟩

/-- The command that puts the query to an engine. -/
def cmd : Engine → Query → Cmd
  | .array, set _ _ => .set
  | .array, get _ => .get
  | .tree, set _ _ => .rset
  | .tree, get _ => .rget
  | .hash, set _ _ => .hset
  | .hash, get _ => .hget

/-- The text of the reply from an engine that holds a map; the tree does not tell whether a key
was there. -/
def answer (e : Engine) (m : CString → Option CString) : Query → List UInt8
  | set k _ => if e ≠ .tree ∧ (m k).isSome then existText else okText
  | get k => (m k).elim noExistText CString.bytes

end Query

section Step

variable {S : Type*} [Comparisons S] {P : Scores S} {cfg : ServerConfig} {n : ℕ} {w : Host}
  {s s' : Store S} {e : Engine} {m : CString → Option CString} {q : Query}

/-- Every value has room in the result. -/
def Short (m : CString → Option CString) : Prop := ∀ k v, m k = some v → v.length < resultSize

/-- An engine of the store holds a map. -/
def Store.Keeps (s : Store S) : Engine → (CString → Option CString) → Prop
  | .array, m => s.array.Dense m ∧ Short m
  | .tree, m => s.rbtree.Maps m ∧ Short m
  | .hash, m => s.hash.Maps m ∧ Short m

/-- Every allocation succeeds, and the node of the tree gets a block that is not in use. -/
structure Grants (s : Store S) (w : Host) : Prop where
  array : w.array = ⟨true, true⟩
  node : ∃ p, w.node = ⟨some p, true, true⟩ ∧ s.rbtree.Free p
  hash : w.hash = ⟨true, true, true⟩

theorem Short.empty : Short fun _ => none := by
  intro k v h
  cases h

omit [Comparisons S] in
/-- A new engine holds nothing. -/
theorem Store.Keeps.fresh {s : Store S} {T : Rbtree} {p : Ptr} (hp : p ≠ null)
    (htree : s.rbtree = kvsRbtreeCreate T p) (hhash : s.hash = kvsHashCreate fun _ => some [])
    (e : Engine) (harray : e = .array → s.array = kvsArrayCreate) : s.Keeps e fun _ => none := by
  cases e with
  | array => exact ⟨harray rfl ▸ .create, .empty⟩
  | tree => exact ⟨htree ▸ .create hp, .empty⟩
  | hash => exact ⟨hhash ▸ .create, .empty⟩

theorem Short.next (h : Short m) (hq : q.Valid) : Short (next m q.call) := by
  cases q with
  | get k => exact h
  | set k v =>
    intro j w hj
    simp only [Query.call, KeyValue.next] at hj
    by_cases hk : (m k).isSome
    · rw [if_pos hk] at hj
      exact h j w hj
    · rw [if_neg hk] at hj
      by_cases hjk : j = k
      · rw [hjk, Function.update_self, Option.some.injEq] at hj
        exact hj ▸ hq.value_lt
      · rw [Function.update_of_ne hjk] at hj
        exact h j w hj

theorem getText_elim (h : Short m) (k : CString) :
    getText ((m k).elim .null .str) = some ((m k).elim noExistText CString.bytes) := by
  cases hk : m k with
  | none => rfl
  | some v => exact if_pos (h k v hk)

theorem retText_set (b : Prop) [Decidable b] :
    retText (if b then 1 else 0) existText = if b then existText else okText := by
  by_cases hb : b
  · simp [retText, hb]
  · simp [retText, hb]

variable (P cfg) in
/-- The array runs a query while it has a slot left. -/
theorem Store.Keeps.runArray (h : s.Keeps .array m) (hw : Grants s w) (hq : q.Valid)
    (hroom : s.array.total < kvsArraySize) : ∃ a,
    Returns (fun n => runCommand P n w s cfg (some (q.cmd .array)) (some q.key) q.value)
      (q.answer .array m, { s with array := a }) ∧
    a.Dense (next m q.call) := by
  obtain ⟨hd, hs⟩ := h
  cases q with
  | set k v =>
    obtain ⟨a, hset, ha, -⟩ := hd.set hw.array hroom k v
    refine ⟨a, .of_eq fun n => ?_, ha⟩
    simp only [Query.cmd, Query.key, Query.value, runCommand, hset, Option.bind_some, retText_set]
    simp [Query.answer]
  | get k =>
    refine ⟨s.array, .of_eq fun n => ?_, hd⟩
    simp only [Query.cmd, Query.key, runCommand, hd.get k, Option.bind_some, getText_elim hs,
      Query.answer]

variable (P cfg) in
theorem Store.Keeps.runTree (h : s.Keeps .tree m) (hw : Grants s w) : ∃ T,
    Returns (fun n => runCommand P n w s cfg (some (q.cmd .tree)) (some q.key) q.value)
      (q.answer .tree m, { s with rbtree := T }) ∧
    T.Maps (next m q.call) := by
  obtain ⟨hT, hs⟩ := h
  cases q with
  | set k v =>
    obtain ⟨p, hp, hfree⟩ := hw.node
    obtain ⟨T, hset, hT'⟩ := hT.set hfree k v
    refine ⟨T, ?_, hT'⟩
    rw [← hp] at hset
    exact hset.bind (g := fun r _ => some (retText r.1 existText, { s with rbtree := r.2 }))
      (.some _)
  | get k =>
    refine ⟨s.rbtree, ?_, hT⟩
    apply (hT.get k).bind (g := fun v _ => (getText v).bind fun result => some (result, s))
    apply Returns.of_eq
    intro n
    rw [getText_elim hs]
    rfl

variable (P cfg) in
theorem Store.Keeps.runHash (h : s.Keeps .hash m) (hw : Grants s w) (hq : q.Valid) : ∃ t,
    Returns (fun n => runCommand P n w s cfg (some (q.cmd .hash)) (some q.key) q.value)
      (q.answer .hash m, { s with hash := t }) ∧
    t.Maps (next m q.call) := by
  obtain ⟨ht, hs⟩ := h
  have hk : HashTable.InRange q.key := HashTable.inRange_of_ascii hq.ascii hq.key_le
  cases q with
  | set k v =>
    have hset : ∃ t, kvsHashSet s.hash ⟨true, true, true⟩ (some k) (some v) =
        some (if (m k).isSome then 1 else 0, t) ∧ t.Maps (next m (.set k v)) := ht.set hk v
    obtain ⟨t, hset, ht'⟩ := hset
    refine ⟨t, .of_eq fun n => ?_, ht'⟩
    simp only [Query.cmd, Query.key, Query.value, runCommand, hw.hash, hset, Option.bind_some,
      retText_set]
    simp [Query.answer]
  | get k =>
    have hget : kvsHashGet s.hash (some k) = some ((m k).elim .null .str) := ht.get hk
    refine ⟨s.hash, .of_eq fun n => ?_, ht⟩
    simp only [Query.cmd, Query.key, runCommand, hget, Option.bind_some, getText_elim hs,
      Query.answer]

variable (P cfg) in
/-- Every query is answered from the map of its engine, which alone changes. -/
theorem Store.Keeps.run (h : s.Keeps e m) (hw : Grants s w) (hq : q.Valid)
    (hroom : e = .array → s.array.total < kvsArraySize) : ∃ s' : Store S,
    Returns (fun n => runCommand P n w s cfg (some (q.cmd e)) (some q.key) q.value)
      (q.answer e m, s') ∧
    s'.Keeps e (next m q.call) ∧ ∀ e' m', e' ≠ e → s.Keeps e' m' → s'.Keeps e' m' := by
  cases e with
  | array =>
    obtain ⟨a, hr, ha⟩ := h.runArray P cfg hw hq (hroom rfl)
    refine ⟨_, hr, ⟨ha, h.2.next hq⟩, ?_⟩
    intro e' m' hne h'
    cases e' with
    | array => exact absurd rfl hne
    | tree => exact h'
    | hash => exact h'
  | tree =>
    obtain ⟨T, hr, hT⟩ := h.runTree P cfg (q := q) hw
    refine ⟨_, hr, ⟨hT, h.2.next hq⟩, ?_⟩
    intro e' m' hne h'
    cases e' with
    | array => exact h'
    | tree => exact absurd rfl hne
    | hash => exact h'
  | hash =>
    obtain ⟨t, hr, ht⟩ := h.runHash P cfg hw hq
    refine ⟨_, hr, ⟨ht, h.2.next hq⟩, ?_⟩
    intro e' m' hne h'
    cases e' with
    | array => exact h'
    | tree => exact h'
    | hash => exact absurd rfl hne

end Step

end KvStore
