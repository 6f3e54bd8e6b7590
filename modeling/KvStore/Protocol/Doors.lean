import KvStore.Protocol.Puts
import KvStore.Rbtree.Reach
import KvStore.Rdb.Durable

/-! The two doors by which a value enters an engine, request packets and snapshot files, and the
copies that a `get` makes into the result. A packet has no room for a value that does not fit
into the result; a record of a file has. -/
namespace KvStore
open Guarded KvsArray HashTable

/-- A value that `strcpy` puts into the result as a whole. -/
def CharPtr.Fits (v : CharPtr) : Prop := ∀ s, v = .str s → s.length < resultSize

theorem CharPtr.fits_str {s : CString} (h : s.length < resultSize) : CharPtr.Fits (.str s) := by
  intro t ht
  cases ht
  exact h

theorem CharPtr.fits_null : CharPtr.Fits .null := by
  intro t ht
  cases ht

theorem CharPtr.fits_of_ne {v : CharPtr} (h : ∀ s, v ≠ .str s) : v.Fits :=
  fun s hs => absurd hs (h s)

section ArrayCalls

variable {a a' : KvsArray} {m : ArrayAlloc} {key value : Option CString} {k v : CString} {c : ℤ}
  {p : CharPtr}

/-- The array has the slot for a new pair, and memory for it. -/
structure KvsArray.Takes (a : KvsArray) (m : ArrayAlloc) (k : CString) : Prop where
  room : a.total ≠ kvsArraySize
  absent : scan true a.table k 0 a.total = some none
  key : m.key = true
  value : m.value = true

theorem lock_eq (h : a.lock = some a') : a' = { a with locked := true } := by
  unfold lock at h
  split_ifs at h
  cases h
  rfl

/-- What a `set` writes. -/
theorem kvsArraySet_table (h : kvsArraySet a m (some k) (some v) = some (c, a')) :
    a'.table = a.table ∨ a.Takes m k ∧ ∃ i, a'.table = Function.update a.table i (.live k v) := by
  obtain ⟨b, hb, h⟩ := Option.bind_eq_some_iff.mp h
  cases lock_eq hb
  dsimp only at h
  by_cases hfull : a.total = kvsArraySize
  · rw [if_pos hfull] at h
    cases h
    exact .inl rfl
  rw [if_neg hfull] at h
  obtain ⟨found, hscan, h⟩ := Option.bind_eq_some_iff.mp h
  cases found with
  | some i =>
    cases h
    exact .inl rfl
  | none =>
    cases hkey : m.key with
    | false =>
      simp only [hkey] at h
      cases h
      exact .inl rfl
    | true =>
      cases hvalue : m.value with
      | false =>
        simp only [hkey, hvalue] at h
        cases h
        exact .inl rfl
      | true =>
        simp only [hkey, hvalue, Bool.not_true, Bool.false_eq_true, if_false] at h
        obtain ⟨hole, -, h⟩ := Option.bind_eq_some_iff.mp h
        have htakes : a.Takes m k := ⟨hfull, hscan, hkey, hvalue⟩
        cases hole with
        | some i =>
          cases h
          exact .inr ⟨htakes, i, rfl⟩
        | none =>
          dsimp only at h
          split_ifs at h
          · cases h
            exact .inr ⟨htakes, a.total, rfl⟩
          · cases h
            exact .inl rfl

/-- A `mod` puts in the new value, or releases the old one only. -/
theorem kvsArrayMod_table {room : Bool} (h : kvsArrayMod a room key value = some (c, a')) :
    a'.table = a.table ∨ ∃ i k w, a'.table = Function.update a.table i ⟨k, w⟩ ∧
      ∀ s, w = .str s → value = some s := by
  obtain ⟨b, hb, h⟩ := Option.bind_eq_some_iff.mp h
  cases lock_eq hb
  cases key with
  | none =>
    cases h
    exact .inl rfl
  | some k =>
    cases value with
    | none =>
      cases h
      exact .inl rfl
    | some v =>
      dsimp only at h
      by_cases hempty : a.total = 0
      · rw [if_pos hempty] at h
        cases h
        exact .inl rfl
      rw [if_neg hempty] at h
      obtain ⟨found, -, h⟩ := Option.bind_eq_some_iff.mp h
      cases found with
      | none =>
        cases h
        exact .inl rfl
      | some i =>
        dsimp only at h
        split_ifs at h
        · cases h
          exact .inr ⟨i, _, _, rfl, fun s hs => nomatch hs⟩
        · cases h
          refine .inr ⟨i, _, _, rfl, ?_⟩
          intro s hs
          cases hs
          rfl

theorem kvsArrayDel_table (h : kvsArrayDel a key = some (c, a')) :
    a'.table = a.table ∨ ∃ i, a'.table = Function.update a.table i .hole := by
  obtain ⟨b, hb, h⟩ := Option.bind_eq_some_iff.mp h
  cases lock_eq hb
  cases key with
  | none =>
    cases h
    exact .inl rfl
  | some k =>
    obtain ⟨found, -, h⟩ := Option.bind_eq_some_iff.mp h
    cases found with
    | none =>
      cases h
      exact .inl rfl
    | some i =>
      dsimp only at h
      split_ifs at h
      · cases h
        exact .inr ⟨i, rfl⟩
      · cases h
        exact .inr ⟨i, rfl⟩

/-- The value that a `get` finds stands in a slot. -/
theorem kvsArrayGet_table (h : kvsArrayGet a key = some (p, a')) :
    a'.table = a.table ∧ (p = .null ∨ ∃ i, p = (a.table i).value) := by
  obtain ⟨b, hb, h⟩ := Option.bind_eq_some_iff.mp h
  cases lock_eq hb
  cases key with
  | none =>
    cases h
    exact ⟨rfl, .inl rfl⟩
  | some k =>
    obtain ⟨found, -, h⟩ := Option.bind_eq_some_iff.mp h
    cases found with
    | none =>
      cases h
      exact ⟨rfl, .inl rfl⟩
    | some i =>
      cases h
      exact ⟨rfl, .inr ⟨i, rfl⟩⟩

theorem kvsArrayExist_table (h : kvsArrayExist a key = some (c, a')) : a'.table = a.table := by
  obtain ⟨b, hb, h⟩ := Option.bind_eq_some_iff.mp h
  cases lock_eq hb
  cases key with
  | none =>
    cases h
    rfl
  | some k =>
    obtain ⟨found, -, h⟩ := Option.bind_eq_some_iff.mp h
    cases found with
    | none =>
      cases h
      rfl
    | some i =>
      cases h
      rfl

end ArrayCalls

/-- No value that a `get` can come upon is too long. -/
structure Engines.Fits (e : Engines) : Prop where
  array : ∀ i, (e.array.table i).value.Fits
  tree : ∀ x, e.rbtree.Reaches x → (e.rbtree.value x).Fits
  hash : ∀ i l, e.hash.nodes i = some l → ∀ x ∈ l, x.value.Fits

section Engines

variable {e : Engines} {k v : CString} {c : ℤ}

theorem fits_update {f : ℕ → ArrayItem} {x : ArrayItem} (h : ∀ i, (f i).value.Fits)
    (hx : x.value.Fits) (i : ℕ) : ∀ j, (Function.update f i x j).value.Fits := by
  intro j
  rw [Function.update_apply]
  split_ifs
  · exact hx
  · exact h j

theorem Engines.Fits.withArray (h : e.Fits) {a : KvsArray} (ha : ∀ i, (a.table i).value.Fits) :
    { e with array := a }.Fits := ⟨ha, h.tree, h.hash⟩

theorem Engines.Fits.arraySet (h : e.Fits) {m : ArrayAlloc} {a : KvsArray}
    (hv : e.array.Takes m k → v.length < resultSize)
    (hr : kvsArraySet e.array m (some k) (some v) = some (c, a)) : { e with array := a }.Fits := by
  apply h.withArray
  obtain htable | ⟨htakes, i, htable⟩ := kvsArraySet_table hr
  · rw [htable]
    exact h.array
  · rw [htable]
    exact fits_update h.array (CharPtr.fits_str (hv htakes)) i

/-- The node of a `set` whose key is there already is left out of the tree. -/
structure Rbtree.Leaves (n : ℕ) (T : Rbtree) (p : Ptr) (k : CString) : Prop where
  unused : ¬ T.Reaches p
  found : ∃ q, rbtreeSearch n T k = some q ∧ q ≠ T.nil

theorem Engines.Fits.treeSet (h : e.Fits) {n : ℕ} {m : NodeAlloc} {T : Rbtree}
    (hv : ∀ p, m.node = some p → m.key = true → m.value = true →
      v.length < resultSize ∨ e.rbtree.Leaves n p k)
    (hr : kvsRbtreeSet n e.rbtree m (some k) (some v) = some (c, T)) :
    { e with rbtree := T }.Fits := by
  refine ⟨h.array, ?_, h.hash⟩
  obtain ⟨p, hp, hr⟩ := Option.bind_eq_some_iff.mp hr
  have hclosed := e.rbtree.closed_reaches
  split_ifs at hr with hkey hvalue
  · cases hr
    exact h.tree
  · cases hr
    intro x hx
    exact h.tree x (hx _ (hclosed.setKey p k))
  · obtain ⟨T', hT', hr⟩ := Option.bind_eq_some_iff.mp hr
    cases hr
    have hclosed' := (hclosed.setKey p k).setValue p (.str v)
    have hvalue' : T.value = Function.update e.rbtree.value p (.str v) :=
      Rbtree.rbtreeInsert_value hT'
    intro x hx
    dsimp only at hx ⊢
    rw [hvalue', Function.update_apply]
    have hcases := hv p hp (by simpa using hkey) (by simpa using hvalue)
    by_cases hxp : x = p
    · rw [if_pos hxp]
      obtain hshort | hleaves := hcases
      · exact CharPtr.fits_str hshort
      · obtain ⟨q, hq, hqn⟩ := hleaves.found
        have hfound := hclosed.insertDescend_found (v := .str v) hleaves.unused hclosed.root hq hqn
        obtain rfl | ⟨hmiss, -⟩ := hclosed'.insert hT'
        · exact absurd (hxp ▸ hx _ hclosed') hleaves.unused
        · exact absurd (hfound _) hmiss
    · rw [if_neg hxp]
      obtain rfl | ⟨-, hnew⟩ := hclosed'.insert hT'
      · exact h.tree x (hx _ hclosed')
      · exact h.tree x ((hx _ hnew).resolve_left hxp)

theorem Engines.Fits.hashSet (h : e.Fits) {m : HashAlloc} {t : HashTable}
    (hv : (∀ i l, e.hash.chainOf k = some (i, l) → locate k l = none) → v.length < resultSize)
    (hr : kvsHashSet e.hash m (some k) (some v) = some (c, t)) : { e with hash := t }.Fits := by
  refine ⟨h.array, h.tree, ?_⟩
  obtain ⟨⟨i, l⟩, hchain, hr⟩ := Option.bind_eq_some_iff.mp hr
  dsimp only at hr
  cases hloc : locate k l with
  | some r =>
    rw [hloc] at hr
    cases hr
    exact h.hash
  | none =>
    rw [hloc] at hr
    obtain ⟨node, hnode, hr⟩ := Option.bind_eq_some_iff.mp hr
    cases hr
    obtain ⟨b₁, b₂, b₃⟩ := m
    have hshort : v.length < resultSize := by
      apply hv
      intro i' l' hchain'
      rw [hchain] at hchain'
      cases hchain'
      exact hloc
    have hnew : node.value.Fits := by
      cases b₁ <;> cases b₂ <;> cases b₃ <;> cases hnode
      exact CharPtr.fits_str hshort
    have hold : ∀ x ∈ l, x.value.Fits := by
      obtain ⟨j, hj, hl⟩ := Option.bind_eq_some_iff.mp hchain
      obtain ⟨l', hl', he⟩ := Option.map_eq_some_iff.mp hl
      cases he
      exact h.hash i l hl'
    intro j l' hl' x hx
    dsimp only [HashTable.setChain] at hl'
    rw [Function.update_apply] at hl'
    split_ifs at hl'
    · cases hl'
      obtain rfl | hx := List.mem_cons.mp hx
      · exact hnew
      · exact hold x hx
    · exact h.hash j l' hl' x hx

/-- A record that leaves no value behind: the array has no slot for the pair, no memory for it or
the key already, the tree or the hash table has the key already. -/
def Engines.Refuses (n : ℕ) (w : EngineAlloc) (e : Engines) (r : RdbRecord) : Prop :=
  (r.type = 0 → ¬ e.array.Takes w.array r.key) ∧
  (r.type = 1 → ∀ p, w.node.node = some p → w.node.key = true → w.node.value = true →
    e.rbtree.Leaves n p r.key) ∧
  (r.type = 2 → ∃ i l, e.hash.chainOf r.key = some (i, l) ∧ locate r.key l ≠ none)

/-- Every record has a value that fits into the result, or leaves none behind. -/
def PassFits (n : ℕ) (w : ℕ → EngineAlloc) : ℕ → Engines → List RdbRecord → Prop
  | _, _, [] => True
  | i, e, r :: rs => (r.value.length < resultSize ∨ e.Refuses n (w i) r) ∧
    ∀ e', passRecord n (w i) e r = some e' → PassFits n w (i + 1) e' rs

theorem Engines.Fits.passRecord (h : e.Fits) {n : ℕ} {w : EngineAlloc} {r : RdbRecord}
    {e' : Engines} (hv : r.value.length < resultSize ∨ e.Refuses n w r)
    (hr : passRecord n w e r = some e') : e'.Fits := by
  unfold KvStore.passRecord at hr
  split_ifs at hr with h₀ h₁ h₂
  · obtain ⟨x, hx, rfl⟩ := Option.map_eq_some_iff.mp hr
    exact h.arraySet (fun htakes => hv.resolve_right fun hno => hno.1 h₀ htakes) hx
  · obtain ⟨x, hx, rfl⟩ := Option.map_eq_some_iff.mp hr
    exact h.treeSet (fun p hp hkey hvalue => hv.imp id fun hno => hno.2.1 h₁ p hp hkey hvalue) hx
  · obtain ⟨x, hx, rfl⟩ := Option.map_eq_some_iff.mp hr
    apply h.hashSet _ hx
    intro hnone
    apply hv.resolve_right
    intro hno
    obtain ⟨i, l, hchain, hfound⟩ := hno.2.2 h₂
    exact hfound (hnone i l hchain)
  · cases hr
    exact h

theorem Engines.Fits.passRecords (h : e.Fits) {n i : ℕ} {w : ℕ → EngineAlloc}
    {rs : List RdbRecord} {e' : Engines} (hv : PassFits n w i e rs)
    (hr : passRecords n w i e rs = some e') : e'.Fits := by
  induction rs generalizing i e with
  | nil =>
    cases hr
    exact h
  | cons r rs ih =>
    obtain ⟨e₁, he₁, hr⟩ := Option.bind_eq_some_iff.mp hr
    exact ih (h.passRecord hv.1 he₁) (hv.2 e₁ he₁) hr

end Engines

section Requests

variable {S : Type*} {P : Scores S} {cfg : ServerConfig} {n : ℕ} {w : Host} {s : Store S}
  {key value : Option CString} {c : List UInt8 × Store S}

/-- The other commands leave the three engines alone. -/
theorem runSave_toEngines (h : runSave w s cfg = some c) : c.2.toEngines = s.toEngines := by
  obtain ⟨r, -, h⟩ := Option.bind_eq_some_iff.mp h
  cases h
  rfl

theorem runZrem_toEngines (h : runZrem n s key = some c) : c.2.toEngines = s.toEngines := by
  unfold runZrem at h
  split at h
  · cases h
    rfl
  · obtain ⟨r, -, h⟩ := Option.bind_eq_some_iff.mp h
    cases h
    rfl

variable [Comparisons S]

theorem runZadd_toEngines (h : runZadd P n w s key value = some c) :
    c.2.toEngines = s.toEngines := by
  unfold runZadd at h
  split at h
  · split at h
    · cases h
      rfl
    · obtain ⟨r, -, h⟩ := Option.bind_eq_some_iff.mp h
      cases h
      rfl
  · cases h
    rfl

theorem runZrange_toEngines (h : runZrange P n s key value = some c) :
    c.2.toEngines = s.toEngines := by
  unfold runZrange at h
  split at h
  · split at h
    · cases h
      rfl
    · obtain ⟨r, -, h⟩ := Option.bind_eq_some_iff.mp h
      cases h
      rfl
  · cases h
    rfl

/-- A `set` without a key or a value. -/
theorem Engines.Fits.arraySet_request {e : Engines} {m : ArrayAlloc} {r : ℤ × KvsArray}
    (h : e.Fits) (hv : ∀ v, value = some v → v.length < resultSize)
    (hr : kvsArraySet e.array m key value = some r) : { e with array := r.2 }.Fits := by
  obtain ⟨c, a⟩ := r
  cases key with
  | none =>
    obtain ⟨b, hb, hr⟩ := Option.bind_eq_some_iff.mp hr
    cases lock_eq hb
    cases hr
    exact h.withArray h.array
  | some k =>
    cases value with
    | none =>
      obtain ⟨b, hb, hr⟩ := Option.bind_eq_some_iff.mp hr
      cases lock_eq hb
      cases hr
      exact h.withArray h.array
    | some v => exact h.arraySet (fun _ => hv v rfl) hr

theorem Engines.Fits.treeSet_request {e : Engines} {m : NodeAlloc} {r : ℤ × Rbtree}
    (h : e.Fits) (hv : ∀ v, value = some v → v.length < resultSize)
    (hr : kvsRbtreeSet n e.rbtree m key value = some r) : { e with rbtree := r.2 }.Fits := by
  obtain ⟨c, T⟩ := r
  cases key with
  | none =>
    cases hr
    exact h
  | some k =>
    cases value with
    | none =>
      cases hr
      exact h
    | some v => exact h.treeSet (fun _ _ _ _ => .inl (hv v rfl)) hr

theorem Engines.Fits.hashSet_request {e : Engines} {m : HashAlloc} {r : ℤ × HashTable}
    (h : e.Fits) (hv : ∀ v, value = some v → v.length < resultSize)
    (hr : kvsHashSet e.hash m key value = some r) : { e with hash := r.2 }.Fits := by
  obtain ⟨c, t⟩ := r
  cases key with
  | none =>
    cases hr
    exact h
  | some k =>
    cases value with
    | none =>
      cases hr
      exact h
    | some v => exact h.hashSet (fun _ => hv v rfl) hr

/-- No command makes a value longer. -/
theorem runCommand_fits {cmd : Option Cmd} (h : s.toEngines.Fits)
    (hv : ∀ v, value = some v → v.length < resultSize)
    (hr : runCommand P n w s cfg cmd key value = some c) : c.2.toEngines.Fits := by
  unfold runCommand at hr
  split at hr
  · obtain ⟨x, hx, hr⟩ := Option.bind_eq_some_iff.mp hr
    cases hr
    exact h.arraySet_request hv hx
  · obtain ⟨x, hx, hr⟩ := Option.bind_eq_some_iff.mp hr
    obtain ⟨t, -, hr⟩ := Option.bind_eq_some_iff.mp hr
    cases hr
    apply h.withArray
    rw [(kvsArrayGet_table hx).1]
    exact h.array
  · obtain ⟨x, hx, hr⟩ := Option.bind_eq_some_iff.mp hr
    cases hr
    apply h.withArray
    obtain htable | ⟨i, htable⟩ := kvsArrayDel_table hx
    · rw [htable]
      exact h.array
    · rw [htable]
      exact fits_update h.array CharPtr.fits_null i
  · obtain ⟨x, hx, hr⟩ := Option.bind_eq_some_iff.mp hr
    cases hr
    apply h.withArray
    obtain htable | ⟨i, k, u, htable, hu⟩ := kvsArrayMod_table hx
    · rw [htable]
      exact h.array
    · rw [htable]
      exact fits_update h.array (fun t ht => hv t (hu t ht)) i
  · obtain ⟨x, hx, hr⟩ := Option.bind_eq_some_iff.mp hr
    cases hr
    apply h.withArray
    rw [kvsArrayExist_table hx]
    exact h.array
  · obtain ⟨x, hx, hr⟩ := Option.bind_eq_some_iff.mp hr
    cases hr
    exact h.treeSet_request hv hx
  · obtain ⟨x, -, hr⟩ := Option.bind_eq_some_iff.mp hr
    obtain ⟨t, -, hr⟩ := Option.bind_eq_some_iff.mp hr
    cases hr
    exact h
  · obtain ⟨x, hx, hr⟩ := Option.bind_eq_some_iff.mp hr
    cases hr
    exact h.hashSet_request hv hx
  · obtain ⟨x, -, hr⟩ := Option.bind_eq_some_iff.mp hr
    obtain ⟨t, -, hr⟩ := Option.bind_eq_some_iff.mp hr
    cases hr
    exact h
  · rw [runZadd_toEngines hr]
    exact h
  · rw [runZrem_toEngines hr]
    exact h
  · rw [runZrange_toEngines hr]
    exact h
  · rw [runSave_toEngines hr]
    exact h
  · cases hr
    exact h

theorem kvsTcpProtocol_fits {buffer : List UInt8} {len : ℕ} {r : Handled S}
    (h : s.toEngines.Fits) (hr : kvsTcpProtocol P cfg n w s buffer len = some r) :
    r.store.toEngines.Fits := by
  by_cases hacc : Accepted buffer len
  · have hlen : (TcpHeader.read buffer).dataLen ≤ resultSize := hacc.dataLen_le
    rw [hacc.kvsTcpProtocol] at hr
    obtain ⟨p, hp, hr⟩ := Option.bind_eq_some_iff.mp hr
    obtain ⟨c, hc, hr⟩ := Option.bind_eq_some_iff.mp hr
    cases hr
    exact runCommand_fits h (fun v hv => ((splitPayload_length hp).2 v hv).trans_le hlen) hc
  · rw [kvsTcpProtocol_rejected hacc hr]
    exact h

end Requests

/-- What brings values in: a request, or a load of a file. -/
inductive Door
  | request (q : Received)
  | load (cfg : RdbConfig) (io : LoadIO) (file : Option (List UInt8)) (n : ℕ)
      (w : ℕ → EngineAlloc)

section Doors

variable {S : Type*} [Comparisons S] (P : Scores S) (cfg : ServerConfig)

/-- One request, or one load with what its records make of the engines; the number is what the
call returns. -/
def enter (s : Store S) : Door → Option (ℤ × Store S)
  | .request q => (serve P cfg s q).map fun r => (r.1.ret, r.2)
  | .load rdb io file n w =>
    let loaded := kvsRdbLoad rdb io file
    (passRecords n w 0 s.toEngines loaded.calls).map fun e => (loaded.code, { s with toEngines := e })

/-- A request may have any packet; the records of a file have to fit. -/
def Door.Fits (s : Store S) : Door → Prop
  | .request _ => True
  | .load rdb io file n w => PassFits n w 0 s.toEngines (kvsRdbLoad rdb io file).calls

end Doors

/-- Every value that `GET`, `RGET` or `HGET` copies into the result has room there with its NUL. -/
structure Engines.CopiesFit (e : Engines) : Prop where
  get : ∀ key v a, kvsArrayGet e.array key = some (.str v, a) → v.length ≤ 1023
  rget : ∀ n key v, kvsRbtreeGet n e.rbtree key = some (.str v) → v.length ≤ 1023
  hget : ∀ key v, kvsHashGet e.hash key = some (.str v) → v.length ≤ 1023

/-- The engines as `init_kvengine` leaves them. What `kvs_malloc` left in the tree's memory is no
string, and in a slot of the hash table no chain of nodes. -/
structure Engines.Started (e : Engines) : Prop where
  array : e.array = kvsArrayCreate
  tree : ∃ M p, e.rbtree = kvsRbtreeCreate M p ∧ ∀ x s, M.value x ≠ .str s
  hash : ∃ nodes, e.hash = kvsHashCreate nodes ∧ ∀ i l, nodes i = some l → l = []

theorem Engines.Started.fits {e : Engines} (h : e.Started) : e.Fits := by
  obtain ⟨M, p, htree, hM⟩ := h.tree
  obtain ⟨nodes, hhash, hnodes⟩ := h.hash
  constructor
  · intro i
    rw [h.array]
    exact CharPtr.fits_of_ne fun _ hs => nomatch hs
  · intro x _
    rw [htree]
    exact CharPtr.fits_of_ne (hM x)
  · intro i l hl x hx
    rw [hhash] at hl
    rw [hnodes i l hl] at hx
    cases hx

theorem Engines.Fits.copiesFit {e : Engines} (h : e.Fits) : e.CopiesFit := by
  constructor
  · intro key v a hr
    obtain ⟨-, hnull | ⟨i, hv⟩⟩ := kvsArrayGet_table hr
    · cases hnull
    · exact Nat.le_of_lt_succ (h.array i v hv.symm)
  · intro n key v hr
    cases key with
    | none => cases hr
    | some k =>
      obtain ⟨q, hq, hr⟩ := Option.bind_eq_some_iff.mp hr
      split_ifs at hr
      · cases hr
      · cases hr
      · have hreach := e.rbtree.closed_reaches.search e.rbtree.closed_reaches.root hq
        exact Nat.le_of_lt_succ (h.tree q hreach v (Option.some.inj hr))
  · intro key v hr
    cases key with
    | none => cases hr
    | some k =>
      obtain ⟨⟨i, l⟩, hchain, hr⟩ := Option.bind_eq_some_iff.mp hr
      dsimp only at hr
      cases hloc : locate k l with
      | none =>
        rw [hloc] at hr
        cases hr
      | some r =>
        rw [hloc] at hr
        obtain ⟨a, x, b⟩ := r
        obtain ⟨rfl, -⟩ := eq_of_locate hloc
        obtain ⟨j, -, hl⟩ := Option.bind_eq_some_iff.mp hchain
        obtain ⟨l', hl', he⟩ := Option.map_eq_some_iff.mp hl
        cases he
        exact Nat.le_of_lt_succ (h.hash i _ hl' x (by simp) v (Option.some.inj hr))

section Runs

variable {S : Type*} [Comparisons S] (P : Scores S) (cfg : ServerConfig)

end Runs

theorem startStore_started : startStore.toEngines.Started :=
  ⟨rfl, ⟨Rbtree.blank, 1, rfl, fun _ _ => nofun⟩, ⟨_, rfl, fun _ _ h => by cases h; rfl⟩⟩

/-- A load of a file that holds one pair for the array. -/
def loadPair (key value : CString) : Door :=
  .load plainConfig.rdb ⟨true, fun _ => (true, true)⟩
    (some (plainFile plainConfig.rdb readyIO [⟨0, key, value⟩] [])) 0 roomyAlloc

section Pair

variable {key value : CString}

theorem loadPair_calls (hkey : key ≠ .empty) (hk : key.length ≤ 1024) (hv : value.length ≤ 1024) :
    (kvsRdbLoad plainConfig.rdb ⟨true, fun _ => (true, true)⟩
      (some (plainFile plainConfig.rdb readyIO [⟨0, key, value⟩] []))).calls =
        [⟨0, key, value⟩] := by
  have hfits : RdbRecord.Fits ⟨0, key, value⟩ := ⟨.inl rfl, hk, hv⟩
  have hlen : RawRecord.bytes ⟨0, key.bytes, value.bytes⟩ = RdbRecord.bytes ⟨0, key, value⟩ :=
    hfits.bytes_eq.symm
  apply plainFile_load_all readyIO rfl rfl (fun _ => rfl)
  · rw [List.append_nil]
    exact List.forall_mem_singleton.mpr hfits
  · rw [List.append_nil]
    exact List.forall_mem_singleton.mpr hkey
  · rw [List.append_nil, List.flatMap_singleton, ← hlen, RawRecord.length_bytes]
    change 5 + key.length + value.length < 2 ^ 32
    omega

/-- The pair is in the array then. -/
theorem loadPair_enters (hkey : key ≠ .empty) (hk : key.length ≤ 1024) (hv : value.length ≤ 1024) :
    ∃ s', finish (enter plainScores plainConfig) startStore [loadPair key value] = some s' ∧
      kvsArrayGet s'.array (some key) = some (.str value, s'.array) := by
  obtain ⟨a, ha, hdense, -⟩ := Dense.create.set (p := ⟨true, true⟩) rfl (by decide) key value
  have hget := hdense.get key
  have hpass : passRecords 0 roomyAlloc 0 startStore.toEngines [⟨0, key, value⟩] =
      some { startStore.toEngines with array := a } := by
    rw [passRecords, passRecord, if_pos rfl]
    change (Option.map _ (kvsArraySet kvsArrayCreate ⟨true, true⟩ (some key) (some value))).bind _ = _
    rw [ha]
    rfl
  have henter : ∃ c, enter plainScores plainConfig startStore (loadPair key value) =
      some (c, { startStore with array := a }) := by
    rw [loadPair, enter]
    dsimp only
    rw [loadPair_calls hkey hk hv, hpass]
    exact ⟨_, rfl⟩
  obtain ⟨c, hc⟩ := henter
  refine ⟨{ startStore with array := a }, by rw [finish, hc]; rfl, ?_⟩
  rw [hget]
  simp [KeyValue.next]

end Pair

/-- 1024 times the same letter. -/
def longValue : CString := ⟨List.replicate 1024 98, fun h => by cases List.eq_of_mem_replicate h⟩

theorem length_longValue : longValue.length = 1024 := List.length_replicate

end KvStore
