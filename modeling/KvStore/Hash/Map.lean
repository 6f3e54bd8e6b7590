import KvStore.Hash.Model
import KvStore.Lib.KeyValue

/-! The hash engine as a finite map. Replacing one chain replaces one stretch of the list of
all nodes, and no other chain has a node with the key at hand. -/
namespace KvStore
open KeyValue

namespace HashTable

variable {h : HashTable} {m m' : CString → Option CString} {k v : CString}
  {i : Fin maxTableSize} {l l' A B : List HashNode}

theorem locate_eq_none : locate k l = none ↔ ∀ x ∈ l, x.key ≠ k := by
  induction l with
  | nil => simp [locate]
  | cons x l ih =>
    by_cases hx : x.key = k
    · simp [locate, hx]
    · simp [locate, hx, ih]

theorem eq_of_locate {x : HashNode} {a b : List HashNode} (hl : locate k l = some (a, x, b)) :
    l = a ++ x :: b ∧ x.key = k := by
  induction l generalizing a with
  | nil => simp [locate] at hl
  | cons y l ih =>
    by_cases hy : y.key = k
    · simp only [locate, CString.strcmp_eq_zero, hy, if_true, Option.some.injEq,
        Prod.mk.injEq] at hl
      obtain ⟨rfl, rfl, rfl⟩ := hl
      exact ⟨rfl, hy⟩
    · simp only [locate, CString.strcmp_eq_zero, hy, if_false, Option.map_eq_some_iff] at hl
      obtain ⟨⟨a', x', b'⟩, hl, he⟩ := hl
      cases he
      obtain ⟨rfl, hk⟩ := ih hl
      exact ⟨rfl, hk⟩

def chain (h : HashTable) (i : Fin maxTableSize) : List HashNode := (h.nodes i).getD []

/-- All nodes of the table, bucket by bucket. -/
def entries (h : HashTable) : List HashNode := (List.finRange maxTableSize).flatMap h.chain

theorem chain_setChain (h : HashTable) (i : Fin maxTableSize) (l : List HashNode) :
    (h.setChain i l).chain = Function.update h.chain i l := by
  funext j
  by_cases hj : j = i
  · subst hj
    simp [chain, setChain]
  · simp [chain, setChain, hj]

/-- The key belongs to a slot of the table. -/
def InRange (k : CString) : Prop := 0 ≤ hash k maxTableSize ∧ hash k maxTableSize < maxTableSize

instance : DecidablePred InRange := fun _ => inferInstanceAs (Decidable (_ ∧ _))

theorem InRange.slot (hk : InRange k) :
    ∃ i : Fin maxTableSize, slot (hash k maxTableSize) = some i ∧ (i : ℤ) = hash k maxTableSize := by
  refine ⟨_, dif_pos hk, ?_⟩
  have h0 := hk.1
  simp only [Int.toNat_of_nonneg h0]

/-- Every node sits in the bucket of its own key, no key occurs twice, and the nodes are
counted. -/
structure WellPlaced (h : HashTable) : Prop where
  chained : ∀ i, (h.nodes i).isSome
  placed : ∀ i, ∀ x ∈ h.chain i, (i : ℤ) = hash x.key maxTableSize
  nodup : (h.entries.map HashNode.key).Nodup
  count : kvsHashCount h = h.entries.length

/-- The table is well placed and stores exactly the entries of the map. -/
structure Maps (h : HashTable) (m : CString → Option CString) : Prop where
  chained : ∀ i, (h.nodes i).isSome
  placed : ∀ i, ∀ x ∈ h.chain i, (i : ℤ) = hash x.key maxTableSize
  count : h.count = h.entries.length
  represents : Represents (h.entries.map HashNode.entry) (strings m)

theorem keys_entries (l : List HashNode) :
    (l.map HashNode.entry).map Prod.fst = l.map HashNode.key := by
  rw [List.map_map]
  rfl

theorem Maps.wellPlaced (hm : h.Maps m) : h.WellPlaced := by
  refine ⟨hm.chained, hm.placed, ?_, hm.count⟩
  rw [← keys_entries]
  exact hm.represents.nodup

/-- The bucket `l` at slot `i` of the key `k`, between the nodes of the other buckets. -/
structure Bucket (h : HashTable) (k : CString) (i : Fin maxTableSize) (l A B : List HashNode) :
    Prop where
  chainOf : h.chainOf k = some (i, l)
  index : (i : ℤ) = hash k maxTableSize
  chain : h.chain i = l
  entries : h.entries = A ++ l ++ B
  others : ∀ x ∈ A ++ B, x.key ≠ k
  update : ∀ l', (h.setChain i l').entries = A ++ l' ++ B

theorem Maps.bucket (hm : h.Maps m) (hk : InRange k) : ∃ i l A B, h.Bucket k i l A B := by
  obtain ⟨i, hslot, hi⟩ := hk.slot
  obtain ⟨l, hl⟩ := Option.isSome_iff_exists.mp (hm.chained i)
  have hchain : h.chain i = l := by simp [HashTable.chain, hl]
  obtain ⟨A, B, hAB, hother⟩ := exists_flatMap_update h.chain i
  refine ⟨i, l, A, B, ?_, hi, hchain, ?_, fun x hx he => ?_, fun l' => ?_⟩
  · simp [HashTable.chainOf, hslot, hl]
  · rw [← hAB l, ← hchain, Function.update_eq_self]
    rfl
  · obtain ⟨j, hj, hxj⟩ := hother x hx
    have hji := hm.placed j x hxj
    rw [he, ← hi] at hji
    exact hj (Fin.ext (by exact_mod_cast hji))
  · rw [HashTable.entries, chain_setChain, hAB]

/-- A key is in the map exactly when a node of its bucket has it. -/
theorem Maps.isSome_iff (hm : h.Maps m) (hb : h.Bucket k i l A B) :
    (m k).isSome ↔ ∃ x ∈ l, x.key = k := by
  rw [← isSome_strings, hm.represents.isSome_iff, keys_entries, hb.entries, List.mem_map]
  constructor
  · rintro ⟨x, hx, hk⟩
    refine ⟨x, ?_, hk⟩
    have hno := hb.others x
    simp only [List.mem_append] at hx hno
    tauto
  · rintro ⟨x, hx, hk⟩
    exact ⟨x, by simp [hx], hk⟩

theorem Maps.eq_some {x : HashNode} (hm : h.Maps m) (hb : h.Bucket k i l A B) (hx : x ∈ l)
    (hk : x.key = k) : ∃ v, m k = some v ∧ x.value = .str v := by
  have hs : strings m k = some x.value := by
    refine (hm.represents.mem_iff k x.value).mpr (List.mem_map.mpr ⟨x, ?_, ?_⟩)
    · simp [hb.entries, hx]
    · rw [HashNode.entry, hk]
  obtain ⟨v, hv, hxv⟩ := Option.map_eq_some_iff.mp hs
  exact ⟨v, hv, hxv.symm⟩

/-- Replacing the bucket of a key. -/
theorem Maps.setChain (hm : h.Maps m) (hb : h.Bucket k i l A B)
    (hplaced : ∀ x ∈ l', x ∈ l ∨ x.key = k) {c : ℤ} (hc : c = (A ++ l' ++ B).length)
    (hr : Represents ((A ++ l' ++ B).map HashNode.entry) (strings m')) :
    Maps { h.setChain i l' with count := c } m' := by
  have hch : HashTable.chain { h.setChain i l' with count := c } = Function.update h.chain i l' :=
    chain_setChain h i l'
  have hen : HashTable.entries { h.setChain i l' with count := c } = A ++ l' ++ B := hb.update l'
  refine ⟨fun j => ?_, fun j x hx => ?_, by rw [hen]; exact hc, by rw [hen]; exact hr⟩
  · by_cases hj : j = i
    · subst hj
      simp [HashTable.setChain]
    · simpa [HashTable.setChain, hj] using hm.chained j
  · rw [hch] at hx
    by_cases hj : j = i
    · subst hj
      rw [Function.update_self] at hx
      obtain hx | hx := hplaced x hx
      · exact hm.placed j x (by rwa [hb.chain])
      · rw [hx]
        exact hb.index
    · rw [Function.update_of_ne hj] at hx
      exact hm.placed j x hx

theorem Maps.get (hm : h.Maps m) (hk : InRange k) :
    kvsHashGet h (some k) = some ((m k).elim .null .str) := by
  obtain ⟨i, l, A, B, hb⟩ := hm.bucket hk
  cases hloc : locate k l with
  | none =>
    have hno := (hm.isSome_iff hb).not.mpr (by simpa using locate_eq_none.mp hloc)
    simp [kvsHashGet, hb.chainOf, hloc, Option.not_isSome_iff_eq_none.mp hno]
  | some r =>
    obtain ⟨a, x, b⟩ := r
    obtain ⟨rfl, hx⟩ := eq_of_locate hloc
    obtain ⟨v, hv, hxv⟩ := hm.eq_some hb (by simp) hx
    simp [kvsHashGet, hb.chainOf, hloc, hv, hxv]

theorem Maps.exist (hm : h.Maps m) (hk : InRange k) :
    kvsHashExist h (some k) = some (if (m k).isSome then 0 else 1) := by
  rw [kvsHashExist, hm.get hk]
  cases m k with
  | none => rfl
  | some v => rfl

theorem Maps.set (hm : h.Maps m) (hk : InRange k) (v : CString) :
    ∃ h', kvsHashSet h ⟨true, true, true⟩ (some k) (some v) =
      some (if (m k).isSome then 1 else 0, h') ∧ h'.Maps (next m (.set k v)) := by
  obtain ⟨i, l, A, B, hb⟩ := hm.bucket hk
  cases hloc : locate k l with
  | none =>
    have hno := (hm.isSome_iff hb).not.mpr (by simpa using locate_eq_none.mp hloc)
    have hp : (A ++ ⟨k, .str v⟩ :: l ++ B).Perm (⟨k, .str v⟩ :: h.entries) := by
      rw [hb.entries, List.append_assoc, List.append_assoc]
      exact List.perm_middle
    refine ⟨{ h.setChain i (⟨k, .str v⟩ :: l) with count := h.count + 1 }, ?_,
      hm.setChain hb (fun x hx => ?_) ?_ ?_⟩
    · simp [kvsHashSet, hb.chainOf, hloc, createNode, hno, HashTable.setChain]
    · obtain rfl | hx := List.mem_cons.mp hx
      · exact .inr rfl
      · exact .inl hx
    · have hc := hm.count
      rw [hp.length_eq, List.length_cons]
      omega
    · rw [next, if_neg hno, strings_update]
      refine (hm.represents.cons (k := k) (v := .str v) ?_).perm (hp.map HashNode.entry)
      rw [← hm.represents.isSome_iff, isSome_strings]
      exact hno
  | some r =>
    obtain ⟨a, x, b⟩ := r
    obtain ⟨rfl, hx⟩ := eq_of_locate hloc
    have hyes := (hm.isSome_iff hb).mpr ⟨x, by simp, hx⟩
    refine ⟨h, by simp [kvsHashSet, hb.chainOf, hloc, hyes], ?_⟩
    rwa [next, if_pos hyes]

theorem Maps.mod (hm : h.Maps m) (hk : InRange k) (v : CString) :
    ∃ h', kvsHashMod h true (some k) (some v) =
      some (if (m k).isSome then 0 else 1, h') ∧ h'.Maps (next m (.mod k v)) := by
  obtain ⟨i, l, A, B, hb⟩ := hm.bucket hk
  cases hloc : locate k l with
  | none =>
    have hno := (hm.isSome_iff hb).not.mpr (by simpa using locate_eq_none.mp hloc)
    refine ⟨h, by simp [kvsHashMod, hb.chainOf, hloc, hno], ?_⟩
    rwa [next, if_neg hno]
  | some r =>
    obtain ⟨a, x, b⟩ := r
    obtain ⟨rfl, hx⟩ := eq_of_locate hloc
    have hyes := (hm.isSome_iff hb).mpr ⟨x, by simp, hx⟩
    refine ⟨h.setChain i (a ++ { x with value := .str v } :: b), ?_, ?_⟩
    · simp [kvsHashMod, hb.chainOf, hloc, hyes]
    refine hm.setChain hb (fun y hy => ?_) ?_ ?_
    · simp only [List.mem_append, List.mem_cons] at hy ⊢
      obtain hy | rfl | hy := hy
      · exact .inl (.inl hy)
      · exact .inr hx
      · exact .inl (.inr (.inr hy))
    · have hc := hm.count
      rw [hb.entries] at hc
      simp only [List.length_append, List.length_cons] at hc ⊢
      omega
    · have hr := hm.represents
      rw [hb.entries] at hr
      rw [next, if_pos hyes, strings_update]
      have hr' := Represents.replace (l := (A ++ a).map HashNode.entry) (k := k) (v := x.value)
        (r := (b ++ B).map HashNode.entry) (w := .str v) (m := strings m)
        (by simpa [HashNode.entry, hx] using hr)
      simpa [HashNode.entry, hx] using hr'

/-- Both ways to unlink take out the node that the walk along the whole chain ends at. -/
theorem kvsHashDel_eq (hb : h.Bucket k i l A B) :
    kvsHashDel h (some k) = match locate k l with
      | none => some (-1, h)
      | some (a, _, b) => some (0, { h.setChain i (a ++ b) with count := h.count - 1 }) := by
  rw [kvsHashDel, hb.chainOf]
  cases l with
  | nil => rfl
  | cons x l =>
    by_cases hx : x.key = k
    · simp [locate, hx, HashTable.setChain]
    · cases hloc : locate k l with
      | none => simp [locate, hx, hloc]
      | some r => simp [locate, hx, hloc, HashTable.setChain]

theorem Maps.del (hm : h.Maps m) (hk : InRange k) :
    ∃ h', kvsHashDel h (some k) = some (if (m k).isSome then 0 else -1, h') ∧
      h'.Maps (next m (.del k)) := by
  obtain ⟨i, l, A, B, hb⟩ := hm.bucket hk
  rw [kvsHashDel_eq hb]
  cases hloc : locate k l with
  | none =>
    have hno := (hm.isSome_iff hb).not.mpr (by simpa using locate_eq_none.mp hloc)
    refine ⟨h, by simp [hno], ?_⟩
    have hid : Function.update m k none = m := by
      rw [← Option.not_isSome_iff_eq_none.mp hno, Function.update_eq_self]
    rwa [next, hid]
  | some r =>
    obtain ⟨a, x, b⟩ := r
    obtain ⟨rfl, hx⟩ := eq_of_locate hloc
    have hyes := (hm.isSome_iff hb).mpr ⟨x, by simp, hx⟩
    refine ⟨{ h.setChain i (a ++ b) with count := h.count - 1 }, by simp [hyes],
      hm.setChain hb (fun y hy => ?_) ?_ ?_⟩
    · simp only [List.mem_append, List.mem_cons] at hy ⊢
      tauto
    · have hc := hm.count
      rw [hb.entries] at hc
      simp only [List.length_append, List.length_cons] at hc ⊢
      omega
    · have hr := hm.represents
      rw [hb.entries] at hr
      rw [next, strings_update]
      have hr' := Represents.erase (l := (A ++ a).map HashNode.entry) (k := k) (v := x.value)
        (r := (b ++ B).map HashNode.entry) (m := strings m)
        (by simpa [HashNode.entry, hx] using hr)
      simpa using hr'

/-- A table whose slots are all `NULL` holds the empty map. -/
theorem Maps.create : (kvsHashCreate fun _ => some []).Maps fun _ => none := by
  have he : (kvsHashCreate fun _ => some []).entries = [] := by
    simp [entries, HashTable.chain, kvsHashCreate]
  refine ⟨fun i => rfl, fun i x hx => ?_, by rw [he]; rfl, by rw [he]; exact .nil⟩
  simp [HashTable.chain, kvsHashCreate] at hx

/-- A call of the engine with memory for everything it asks for. -/
def call (h : HashTable) : Call CString CString → Option (Reply CharPtr × HashTable)
  | .set k v => (kvsHashSet h ⟨true, true, true⟩ (some k) (some v)).map fun r => (.status r.1, r.2)
  | .get k => (kvsHashGet h (some k)).map fun v => (.value v, h)
  | .mod k v => (kvsHashMod h true (some k) (some v)).map fun r => (.status r.1, r.2)
  | .del k => (kvsHashDel h (some k)).map fun r => (.status r.1, r.2)
  | .exist k => (kvsHashExist h (some k)).map fun c => (.status c, h)

/-- The reply of a finite map. -/
def reply (m : CString → Option CString) : Call CString CString → Reply CharPtr
  | .set k _ => .status (if (m k).isSome then 1 else 0)
  | .get k => .value ((m k).elim .null .str)
  | .mod k _ => .status (if (m k).isSome then 0 else 1)
  | .del k => .status (if (m k).isSome then 0 else -1)
  | .exist k => .status (if (m k).isSome then 0 else 1)

/-- Every call with a key in range answers as the map does and keeps up with it. -/
theorem Maps.call (hm : h.Maps m) {c : Call CString CString} (hc : InRange c.key) :
    ∃ h', HashTable.call h c = some (reply m c, h') ∧ h'.Maps (next m c) := by
  cases c with
  | set k v =>
    have hk : InRange k := hc
    obtain ⟨h', hs, hm'⟩ := hm.set hk v
    exact ⟨h', by rw [HashTable.call, hs]; rfl, hm'⟩
  | get k =>
    have hk : InRange k := hc
    exact ⟨h, by rw [HashTable.call, hm.get hk]; rfl, hm⟩
  | mod k v =>
    have hk : InRange k := hc
    obtain ⟨h', hs, hm'⟩ := hm.mod hk v
    exact ⟨h', by rw [HashTable.call, hs]; rfl, hm'⟩
  | del k =>
    have hk : InRange k := hc
    obtain ⟨h', hs, hm'⟩ := hm.del hk
    exact ⟨h', by rw [HashTable.call, hs]; rfl, hm'⟩
  | exist k =>
    have hk : InRange k := hc
    exact ⟨h, by rw [HashTable.call, hm.exist hk]; rfl, hm⟩

def Step (h : HashTable) (c : Call CString CString) (r : Reply CharPtr) (h' : HashTable) : Prop :=
  InRange c.key ∧ HashTable.call h c = some (r, h')

theorem Maps.exists_step {c : Call CString CString} (hm : h.Maps m) (hc : InRange c.key) :
    ∃ h', h.Step c (reply m c) h' ∧ h'.Maps (next m c) := by
  obtain ⟨h', hs, hm'⟩ := hm.call hc
  exact ⟨h', ⟨hc, hs⟩, hm'⟩

theorem Maps.step {h' : HashTable} {c : Call CString CString} {r : Reply CharPtr} (hm : h.Maps m)
    (hs : h.Step c r h') : r = reply m c ∧ h'.Maps (next m c) := by
  obtain ⟨hc, hs⟩ := hs
  obtain ⟨h'', hs', hm'⟩ := hm.call hc
  rw [hs] at hs'
  cases hs'
  exact ⟨rfl, hm'⟩

/-- Along every run the nodes are well placed and counted, the replies are those of a finite
map whose entries the table stores, and every further call with a key in range returns. -/
theorem kvsHash_refines_map {log : List (Call CString CString × Reply CharPtr)}
    (hrun : Runs Step (kvsHashCreate fun _ => some []) log h) :
    h.WellPlaced ∧
    log.map Prod.snd = replies next reply (fun _ => none) (log.map Prod.fst) ∧
    h.Maps ((log.map Prod.fst).foldl next fun _ => none) ∧
    ∀ c, InRange c.key → ∃ r h', HashTable.call h c = some (r, h') := by
  obtain ⟨hlog, hm⟩ := hrun.simulates (R := Maps) .create fun hm hs => hm.step hs
  refine ⟨hm.wellPlaced, hlog, hm, fun c hc => ?_⟩
  obtain ⟨h', hs, -⟩ := hm.call hc
  exact ⟨_, h', hs⟩

def keyAB : CString := ⟨[97, 98], by decide⟩
def keyBA : CString := ⟨[98, 97], by decide⟩

/-- Two keys in one chain, the older of which is deleted. -/
def chainCalls : List (Call CString CString) :=
  [.set keyAB keyAB, .set keyBA keyAB, .set keyBA keyBA, .mod keyBA keyBA, .del keyAB, .get keyAB,
    .get keyBA, .del keyAB]

def chainReplies : List (Reply CharPtr) :=
  [.status 0, .status 0, .status 1, .status 0, .status 0, .value .null, .value (.str keyBA),
    .status (-1)]

theorem kvsHash_refines_map_chain : ∃ h,
    Runs Step (kvsHashCreate fun _ => some []) (chainCalls.zip chainReplies) h ∧
    hash keyAB maxTableSize = hash keyBA maxTableSize ∧ h.WellPlaced ∧
    ∃ r h', HashTable.call h (.get keyBA) = some (r, h') := by
  obtain ⟨h, hrun, -⟩ := exists_runs Maps (fun c => InRange c.key) Maps.exists_step .create chainCalls
    (by decide)
  have hreplies : replies next reply (fun _ => none) chainCalls = chainReplies := rfl
  rw [hreplies] at hrun
  obtain ⟨hplaced, -, -, hreturns⟩ := kvsHash_refines_map hrun
  exact ⟨h, hrun, by decide, hplaced, hreturns (.get keyBA) (by decide)⟩

end HashTable
end KvStore
