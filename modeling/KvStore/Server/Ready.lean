import KvStore.Array.Returns
import KvStore.Protocol.Growing
import KvStore.Protocol.Puts
import KvStore.Rdb.Records
import KvStore.Server.Bounds
import KvStore.Skip.Select

/-! When a command comes back: unless it waits for the mutex, which a command before has kept, or
leaves the memory of its engine. What an engine may hold then is what the requests and loads since
the start of the server have left there. -/
namespace KvStore
open Fuel KvsArray HashTable

/-- A slot in use that a save can write: a hole or a pair. -/
def KvsArray.Readable (a : KvsArray) : Prop :=
  ∀ i < a.total, (a.table i).key = .null ∨ ∃ k v, a.table i = .live k v

/-- A command on the array gets the mutex, and its scan meets only slots that it can read. -/
def KvsArray.Ready (a : KvsArray) (c : Cmd) (key value : Option CString) : Prop :=
  a.locked = false ∧
  match c, key, value with
  | .set, some k, some _ => a.total = kvsArraySize ∨ Unobstructed true a k
  | .get, some k, _ => Unobstructed true a k ∧ ¬ a.Lost k
  | .del, some k, _ => Unobstructed false a k ∧ ¬ a.Lost k
  | .mod, some k, some _ => Unobstructed true a k ∧ ¬ a.Lost k
  | .exist, some k, _ => Unobstructed true a k
  | _, _, _ => True

/-- The condition under which a command comes back, in terms of the state that it finds and of the
memory that it gets. -/
def Ready {S : Type*} (cfg : ServerConfig) (w : Host) (s : Store S) (cmd : Option Cmd)
    (key value : Option CString) : Prop :=
  match cmd, key, value with
  | some .rset, some _, some _ => w.node.node ≠ none
  | some .hset, some k, some _ =>
    InRange k ∧ (kvsHashExist s.hash (some k) = some 0 ∨ w.hash = ⟨true, true, true⟩)
  | some .hget, some k, _ => InRange k
  | some .save, _, _ => cfg.rdb.rdbEnabled = true → w.save.opens = true → s.array.Readable
  | some c, key, value => c.onArray = true → s.array.Ready c key value
  | none, _, _ => True

/-- What the system gives: a block for a tree node that is not in use, and one for a new member with
its level. -/
structure Store.Given {S : Type*} (s : Store S) (w : Host) : Prop where
  node : ∀ p, w.node.node = some p → s.rbtree.Free p
  member : s.skiptable.Fresh w.member
  level : w.level ≤ skipMaxLevel

/-- The engines and the skip list are intact. -/
structure Store.Sane {S : Type*} [Zero S] (s : Store S) : Prop where
  array : s.array.Coherent
  tree : ∃ m, s.rbtree.Maps m
  hash : ∃ m, s.hash.Maps m
  list : ∃ ns, s.skiptable.Repr ns

section Engines

variable {t : ℕ → ArrayItem} {i n : ℕ} {a : KvsArray} {h h' : HashTable} {k v : CString}
  {m : CString → Option CString}

theorem arrayRecords_isSome_iff (hn : i + n ≤ kvsArraySize) : (arrayRecords t i n).isSome ↔
    ∀ j, i ≤ j → j < i + n → (t j).key = .null ∨ ∃ k v, t j = .live k v := by
  induction n generalizing i with
  | zero =>
    refine iff_of_true rfl ?_
    intro j hij hj
    omega
  | succ n ih =>
    have hrest := ih (i := i + 1) (by omega)
    have hsplit : (∀ j, i ≤ j → j < i + (n + 1) → (t j).key = .null ∨ ∃ k v, t j = .live k v) ↔
        ((t i).key = .null ∨ ∃ k v, t i = .live k v) ∧
          ∀ j, i + 1 ≤ j → j < i + 1 + n → (t j).key = .null ∨ ∃ k v, t j = .live k v := by
      constructor
      · intro hall
        exact ⟨hall i le_rfl (by omega), fun j hij hj => hall j (by omega) (by omega)⟩
      · rintro ⟨hi, hall⟩ j hij hj
        obtain rfl | hlt := eq_or_lt_of_le hij
        · exact hi
        · exact hall j hlt (by omega)
    rw [hsplit, ← hrest, arrayRecords, if_neg (by omega)]
    cases hkey : (t i).key with
    | null => simp
    | str k =>
      have hlive : (∃ k v, t i = .live k v) ↔ ∃ v, (t i).value = .str v := by
        constructor
        · rintro ⟨k', v, hi⟩
          exact ⟨v, by rw [hi]; rfl⟩
        · rintro ⟨v, hv⟩
          exact ⟨k, v, by rw [ArrayItem.live, ← hkey, ← hv]⟩
      rw [hlive]
      cases hvalue : (t i).value with
      | str v => simp
      | null | uninit | freed => simp
    | uninit | freed =>
      have hlive : ¬ ∃ k v, t i = .live k v := by
        rintro ⟨k, v, hi⟩
        rw [hi] at hkey
        cases hkey
      simp [hlive]

/-- A `set` that comes back found the key, or got all the memory that it asked for. -/
theorem kvsHashSet_isSome_iff (hm : h.Maps m) {p : HashAlloc} :
    (kvsHashSet h p (some k) (some v)).isSome ↔
      InRange k ∧ (kvsHashExist h (some k) = some 0 ∨ p = ⟨true, true, true⟩) := by
  by_cases hk : InRange k
  · obtain ⟨i, l, A, B, hb⟩ := hm.bucket hk
    rw [kvsHashSet, hb.chainOf, hm.exist hk]
    simp only [hk, true_and, Option.bind_some]
    cases hloc : locate k l with
    | some r =>
      obtain ⟨x, y, z⟩ := r
      obtain ⟨rfl, hy⟩ := eq_of_locate hloc
      have hsome := (hm.isSome_iff hb).mpr ⟨y, by simp, hy⟩
      simp [hsome]
    | none =>
      have hno := (hm.isSome_iff hb).not.mpr (by simpa using locate_eq_none.mp hloc)
      obtain ⟨node, key, value⟩ := p
      cases node <;> cases key <;> cases value <;> simp [createNode, hno]
  · have hslot : slot (hash k maxTableSize) = none := dif_neg hk
    simp [kvsHashSet, chainOf, hslot, hk]

/-- What such a `set` leaves. -/
theorem HashTable.Maps.exists_set (hm : h.Maps m) {p : HashAlloc} {c : ℤ}
    (hr : kvsHashSet h p (some k) (some v) = some (c, h')) : ∃ m', h'.Maps m' := by
  obtain ⟨hk, hcase⟩ := (kvsHashSet_isSome_iff hm).mp (Option.isSome_iff_exists.mpr ⟨_, hr⟩)
  obtain hexist | rfl := hcase
  · obtain ⟨i, l, A, B, hb⟩ := hm.bucket hk
    have hthere : (m k).isSome := by
      rw [hm.exist hk] at hexist
      by_contra hno
      simp [hno] at hexist
    obtain ⟨x, hx, hxk⟩ := (hm.isSome_iff hb).mp hthere
    rw [kvsHashSet, hb.chainOf, Option.bind_some] at hr
    cases hloc : locate k l with
    | none => exact absurd hxk (locate_eq_none.mp hloc x hx)
    | some r =>
      simp only [hloc] at hr
      cases hr
      exact ⟨m, hm⟩
  · obtain ⟨h₁, hset, hm₁⟩ := hm.set hk v
    rw [hset] at hr
    cases hr
    exact ⟨_, hm₁⟩

theorem kvsHashGet_isSome_iff (hm : h.Maps m) : (kvsHashGet h (some k)).isSome ↔ InRange k := by
  by_cases hk : InRange k
  · simp [hm.get hk, hk]
  · have hslot : slot (hash k maxTableSize) = none := dif_neg hk
    simp [kvsHashGet, chainOf, hslot, hk]

end Engines

section Array

variable {a : KvsArray} {m : ArrayAlloc} {room : Bool} {key value : Option CString}

/-- While the mutex is held no command is ready, and no call that takes it comes back. -/
theorem KvsArray.isSome_iff_ready_of_held {β : Type*} {o : Option β} {c : Cmd}
    (hl : ¬ a.locked = false) (ho : ∀ r, o = some r → a.locked = false) :
    o.isSome ↔ a.Ready c key value := by
  refine iff_of_false (fun hsome => ?_) fun hready => hl hready.1
  obtain ⟨r, hr⟩ := Option.isSome_iff_exists.mp hsome
  exact hl (ho r hr)

/-- A call that comes back has got the mutex, and did not meet what it cannot read. -/
theorem KvsArray.Coherent.set_ready (h : a.Coherent) :
    (kvsArraySet a m key value).isSome ↔ a.Ready .set key value := by
  by_cases hl : a.locked = false
  · obtain ⟨k, v, rfl, rfl⟩ | hnone := given_or_missing key value
    · rw [h.set_isSome_iff hl, Ready, and_iff_right hl]
    · rw [kvsArraySet_refused hnone, hl]
      refine iff_of_true rfl ⟨hl, ?_⟩
      obtain rfl | rfl := hnone
      · trivial
      · cases key <;> trivial
  · exact isSome_iff_ready_of_held hl fun r hr => locked_of_lock hr

theorem KvsArray.Coherent.del_ready (h : a.Coherent) :
    (kvsArrayDel a key).isSome ↔ a.Ready .del key value := by
  by_cases hl : a.locked = false
  · cases key with
    | some k => rw [h.del_isSome_iff hl, Ready, and_iff_right hl]
    | none => simp [kvsArrayDel_refused, hl, Ready]
  · exact isSome_iff_ready_of_held hl fun r hr => locked_of_lock hr

theorem KvsArray.Coherent.mod_ready (h : a.Coherent) (room : Bool) :
    (kvsArrayMod a room key value).isSome ↔ a.Ready .mod key value := by
  by_cases hl : a.locked = false
  · obtain ⟨k, v, rfl, rfl⟩ | hnone := given_or_missing key value
    · rw [h.mod_isSome_iff hl, Ready, and_iff_right hl]
    · rw [kvsArrayMod_refused hnone, hl]
      refine iff_of_true rfl ⟨hl, ?_⟩
      obtain rfl | rfl := hnone
      · trivial
      · cases key <;> trivial
  · exact isSome_iff_ready_of_held hl fun r hr => locked_of_lock hr

theorem KvsArray.Coherent.exist_ready (h : a.Coherent) :
    (kvsArrayExist a key).isSome ↔ a.Ready .exist key value := by
  by_cases hl : a.locked = false
  · cases key with
    | some k => rw [h.exist_isSome_iff hl, Ready, and_iff_right hl]
    | none => simp [kvsArrayExist_refused, hl, Ready]
  · exact isSome_iff_ready_of_held hl fun r hr => locked_of_lock hr

/-- The value that is found is copied, so it must not have been released. -/
theorem KvsArray.Coherent.get_ready (h : a.Coherent)
    (hshort : ∀ r, kvsArrayGet a key = some r → r.1.Short) :
    ((kvsArrayGet a key).bind fun r => getText r.1).isSome ↔ a.Ready .get key value := by
  by_cases hl : a.locked = false
  · cases key with
    | none => simp [kvsArrayGet_refused, hl, Ready, getText]
    | some k =>
      rw [Ready, and_iff_right hl]
      obtain ⟨hu, hget⟩ | ⟨hu, hall, hget⟩ | ⟨hu, i, hi, hget⟩ := h.get_cases (k := k) hl
      · simp [hget, hu]
      · simp [hget, hu, not_lost_of_passes hall, getText]
      · rw [hi.lost_iff]
        obtain hv | ⟨v, hv⟩ := h.value i k hi.2.1
        · simp [hget, hv, getText]
        · have hlt : v.length < resultSize := by
            have hshort' := hshort _ hget
            rw [hv] at hshort'
            exact hshort'
          simp [hget, hv, hu, getText, hlt]
  · refine isSome_iff_ready_of_held hl fun r hr => ?_
    obtain ⟨x, hx, -⟩ := Option.bind_eq_some_iff.mp hr
    exact locked_of_lock hx

end Array

section Commands

variable {S : Type*} [Comparisons S] [Zero S] {P : Scores S} {cfg : ServerConfig} {w : Host}
  {s s' : Store S} {cmd : Option Cmd} {key value : Option CString} {t : List UInt8}

omit [Comparisons S] in
theorem Store.Sane.save_ready (h : s.Sane) : (runSave w s cfg).isSome ↔
    (cfg.rdb.rdbEnabled = true → w.save.opens = true → s.array.Readable) := by
  obtain ⟨mt, htree⟩ := h.tree
  obtain ⟨mh, hhash⟩ := h.hash
  have hrecords : (rbtreeRecords s.rbtree).isSome := by
    obtain ⟨hnil, -⟩ | ⟨k, v, hone, -⟩ := htree.rbtreeRecords
    · rw [hnil]
      rfl
    · rw [hone]
      rfl
  obtain ⟨tree, htree⟩ := Option.isSome_iff_exists.mp hrecords
  have harray := arrayRecords_isSome_iff (t := s.array.table) (i := 0) (n := s.array.total)
    (by have := h.array.bound; omega)
  have hreadable : s.array.Readable ↔ (arrayRecords s.array.table 0 s.array.total).isSome := by
    simp [harray, Readable]
  rw [hreadable, runSave, kvsRdbSave]
  cases cfg.rdb.rdbEnabled with
  | false => simp
  | true =>
    cases w.save.opens with
    | false => simp
    | true =>
      cases arrayRecords s.array.table 0 s.array.total with
      | none => simp
      | some rs => simp [htree, hhash.hashRecords]

/-- A result that does not depend on the rounds of the loops. -/
theorem exists_returns_iff {α : Type*} {o : Option α} : (∃ a, Returns (fun _ => o) a) ↔ o.isSome := by
  rw [Option.isSome_iff_exists]
  constructor
  · rintro ⟨a, n, hn⟩
    exact ⟨a, hn n le_rfl⟩
  · rintro ⟨a, ha⟩
    exact ⟨a, .of_eq fun _ => ha⟩

theorem isSome_bind_some {α β : Type*} {o : Option α} {f : α → β} :
    (o.bind fun a => some (f a)).isSome ↔ o.isSome := by
  cases o with
  | none => rfl
  | some a => rfl

/-- `ZADD`, `ZREM` and `ZRANGE` always come back. -/
theorem Store.Sane.zadd (h : s.Sane) (hw : s.Given w) (key value : Option CString) :
    ∃ c, Returns (fun n => runZadd P n w s key value) c ∧ c.2.Sane := by
  obtain ⟨k, v, rfl, rfl⟩ | hnone := given_or_missing key value
  · cases hi : v.strchr space with
    | none => exact ⟨(errorText, s), .of_eq fun n => by rw [runZadd, hi], h⟩
    | some i =>
      obtain ⟨ns, hns⟩ := h.list
      have hreturns : ∃ r ns', Returns (fun n => kvsSkiptableZadd n s.skiptable w.member w.level k
          (v.truncate i) (P.atof (.read (v.bytes.drop (i + 1))))) r ∧ r.2.Repr ns' := by
        obtain ⟨pre, post, L, -, -, -, -, ⟨c, post', -, -, -, hret, hL, -⟩ | ⟨-, hret, hL⟩⟩ :=
          hns.zaddPlace hw.member.2 hw.member.1 hw.level k (v.truncate i)
            (P.atof (.read (v.bytes.drop (i + 1))))
        · exact ⟨_, _, hret, hL⟩
        · exact ⟨_, _, hret, hL⟩
      obtain ⟨r, ns', hret, hL⟩ := hreturns
      have hrun := hret.bind (g := fun r _ => some (retText r.1 existText,
        { s with skiptable := r.2 })) (.some _)
      exact ⟨_, hrun.congr fun n => by rw [runZadd, hi], h.array, h.tree, h.hash, ns', hL⟩
  · refine ⟨(errorText, s), .of_eq fun n => ?_, h⟩
    obtain rfl | rfl := hnone
    · rfl
    · cases key <;> rfl

omit [Comparisons S] in
theorem Store.Sane.zrem (h : s.Sane) (key : Option CString) :
    ∃ c, Returns (fun n => runZrem n s key) c ∧ c.2.Sane := by
  cases key with
  | none => exact ⟨_, .some _, h⟩
  | some k =>
    obtain ⟨ns, hns⟩ := h.list
    have hreturns : ∃ r ns', Returns (fun n => kvsSkiptableZrem n s.skiptable k) r ∧ r.2.Repr ns' := by
      obtain ⟨pre, post, rfl, -, -, ⟨c, post', L, -, -, hret, hL, -⟩ | ⟨-, hret⟩⟩ := hns.zrem k
      · exact ⟨_, _, hret, hL⟩
      · exact ⟨_, _, hret, hns⟩
    obtain ⟨r, ns', hret, hL⟩ := hreturns
    have hrun := hret.bind (g := fun r _ => some (if r.1 = 0 then okText else noExistText,
      { s with skiptable := r.2 })) (.some _)
    exact ⟨_, hrun, h.array, h.tree, h.hash, ns', hL⟩

theorem Store.Sane.zrange (h : s.Sane) (key value : Option CString) :
    ∃ c, Returns (fun n => runZrange P n s key value) c ∧ c.2 = s := by
  obtain ⟨k, v, rfl, rfl⟩ | hnone := given_or_missing key value
  · cases hi : P.sscanf v with
    | none => exact ⟨(errorText, s), .of_eq fun n => by rw [runZrange, hi], rfl⟩
    | some r =>
      obtain ⟨min, max⟩ := r
      obtain ⟨ns, hns⟩ := h.list
      obtain ⟨p, hread, hrow⟩ := hns.row
      have hrun := (hrow.zrange hread min max 100).bind (g := fun entries _ =>
        some (zrangeText P entries [], s)) (.some _)
      exact ⟨_, hrun.congr fun n => by rw [runZrange, hi], rfl⟩
  · refine ⟨(errorText, s), .of_eq fun n => ?_, rfl⟩
    obtain rfl | rfl := hnone
    · rfl
    · cases key <;> rfl

omit [Comparisons S] in
/-- What a `set` makes of the tree and of the hash table. -/
theorem Store.Sane.exists_tree (h : s.Sane) {m : NodeAlloc} {r : ℤ × Rbtree} {n : ℕ}
    (hfree : ∀ p, m.node = some p → s.rbtree.Free p)
    (hr : kvsRbtreeSet n s.rbtree m key value = some r) : ∃ m', r.2.Maps m' := by
  obtain ⟨k, v, rfl, rfl⟩ | hnone := given_or_missing key value
  · obtain ⟨mt, htree⟩ := h.tree
    obtain ⟨node, mkey, mvalue⟩ := m
    cases node with
    | none => cases hr
    | some p =>
      obtain ⟨T, hret, hT, -⟩ := htree.set_block (hfree p rfl) mkey mvalue k v
      have heq := ((s.rbtree.kvsRbtreeSet_growing _ _ _).returns hr).unique hret
      rw [heq]
      exact ⟨_, hT⟩
  · obtain rfl | rfl := hnone
    · cases hr
      exact h.tree
    · cases key with
      | none =>
        cases hr
        exact h.tree
      | some k =>
        cases hr
        exact h.tree

omit [Comparisons S] in
theorem Store.Sane.exists_hash (h : s.Sane) {m : HashAlloc} {r : ℤ × HashTable}
    (hr : kvsHashSet s.hash m key value = some r) : ∃ m', r.2.Maps m' := by
  obtain ⟨k, v, rfl, rfl⟩ | hnone := given_or_missing key value
  · obtain ⟨mh, hhash⟩ := h.hash
    exact hhash.exists_set hr
  · obtain rfl | rfl := hnone
    · cases hr
      exact h.hash
    · cases key with
      | none =>
        cases hr
        exact h.hash
      | some k =>
        cases hr
        exact h.hash

omit [Zero S] [Comparisons S] in
theorem ready_onArray {c : Cmd} (hc : c.onArray = true) :
    Ready cfg w s (some c) key value ↔ s.array.Ready c key value := by
  cases c with
  | set | get | del | mod | exist => exact ⟨fun hr => hr rfl, fun hr _ => hr⟩
  | rset | rget | rdel | rmod | rexist | hset | hget | hdel | hmod | hexist | save | zadd | zrem
  | zrange => cases hc

/-- `RSET` needs a block for its node. -/
theorem Store.Sane.rset_ready (h : s.Sane) (hw : s.Given w) :
    (∃ c, Returns (fun n => runCommand P n w s cfg (some .rset) key value) c) ↔
      Ready cfg w s (some .rset) key value := by
  obtain ⟨k, v, rfl, rfl⟩ | hnone := given_or_missing key value
  · obtain ⟨mt, htree⟩ := h.tree
    cases hnode : w.node.node with
    | none =>
      refine iff_of_false ?_ fun hready => hready hnode
      rintro ⟨c, n, hn⟩
      have hc := hn n le_rfl
      simp [runCommand, kvsRbtreeSet, hnode] at hc
    | some p =>
      obtain ⟨T, hret, -⟩ := htree.set_block (hw.node p hnode) w.node.key w.node.value k v
      have hblock : w.node = ⟨some p, w.node.key, w.node.value⟩ := by rw [← hnode]
      rw [← hblock] at hret
      have hrun := hret.bind (g := fun r _ => some (retText r.1 existText,
        { s with rbtree := r.2 })) (.some _)
      refine iff_of_true ⟨_, hrun⟩ ?_
      intro hno
      rw [hnode] at hno
      cases hno
  · refine iff_of_true ⟨(errorText, s), .of_eq fun n => ?_⟩ ?_
    · obtain rfl | rfl := hnone
      · rfl
      · cases key <;> rfl
    · obtain rfl | rfl := hnone
      · exact Bool.false_ne_true.elim
      · cases key <;> exact Bool.false_ne_true.elim

/-- A value that the tree has is short enough to be copied. -/
theorem Store.Sane.exists_rget (h : s.Sane) (hs : s.ShortValues) :
    ∃ c, Returns (fun n => runCommand P n w s cfg (some .rget) key value) c := by
  cases key with
  | none => exact ⟨_, .some _⟩
  | some k =>
    obtain ⟨mt, htree⟩ := h.tree
    have hget := htree.get k
    obtain ⟨n, hn⟩ := id hget
    have hv := hs.tree n (some k) _ (hn n le_rfl)
    obtain ⟨u, hu⟩ : ∃ u, getText ((mt k).elim .null .str) = some u := by
      cases hm : mt k with
      | none => exact ⟨_, rfl⟩
      | some u =>
        rw [hm] at hv
        have hlt : u.length < resultSize := hv
        exact ⟨_, if_pos hlt⟩
    exact ⟨(u, s), hget.bind (g := fun v _ => (getText v).bind fun result => some (result, s))
      (.of_eq fun n => by rw [hu]; rfl)⟩

theorem Store.Sane.hset_ready (h : s.Sane) :
    (∃ c, Returns (fun n => runCommand P n w s cfg (some .hset) key value) c) ↔
      Ready cfg w s (some .hset) key value := by
  obtain ⟨mh, hhash⟩ := h.hash
  refine (exists_returns_iff.trans isSome_bind_some).trans ?_
  obtain ⟨k, v, rfl, rfl⟩ | hnone := given_or_missing key value
  · exact kvsHashSet_isSome_iff hhash
  · obtain rfl | rfl := hnone
    · exact iff_of_true rfl Bool.false_ne_true.elim
    · cases key with
      | none => exact iff_of_true rfl Bool.false_ne_true.elim
      | some k => exact iff_of_true rfl Bool.false_ne_true.elim

/-- `HGET` needs a slot for its key; what it finds there is short enough to be copied. -/
theorem Store.Sane.hget_ready (h : s.Sane) (hs : s.ShortValues) :
    (∃ c, Returns (fun n => runCommand P n w s cfg (some .hget) key value) c) ↔
      Ready cfg w s (some .hget) key value := by
  obtain ⟨mh, hhash⟩ := h.hash
  refine exists_returns_iff.trans ?_
  cases key with
  | none => exact iff_of_true rfl Bool.false_ne_true.elim
  | some k =>
    have hready : Ready cfg w s (some .hget) (some k) value ↔ InRange k := Iff.rfl
    rw [hready, ← kvsHashGet_isSome_iff hhash]
    cases hget : kvsHashGet s.hash (some k) with
    | none => rfl
    | some v =>
      have hk := (kvsHashGet_isSome_iff hhash).mp (by rw [hget]; rfl)
      have hv := hs.hash (some k) v hget
      rw [hhash.get hk, Option.some.injEq] at hget
      subst hget
      cases hm : mh k with
      | none => simp [getText]
      | some u =>
        rw [hm] at hv
        have hlt : u.length < resultSize := hv
        simp [getText, hlt]

/-- A command comes back exactly when it is ready. -/
theorem Store.Sane.returns_iff (h : s.Sane) (hs : s.ShortValues) (hw : s.Given w) :
    (∃ c, Returns (fun n => runCommand P n w s cfg cmd key value) c) ↔ Ready cfg w s cmd key value := by
  cases cmd with
  | none => exact iff_of_true ⟨_, .some _⟩ trivial
  | some c =>
    cases c with
    | set =>
      rw [ready_onArray rfl, ← h.array.set_ready (m := w.array)]
      exact exists_returns_iff.trans isSome_bind_some
    | del =>
      rw [ready_onArray rfl, ← h.array.del_ready]
      exact exists_returns_iff.trans isSome_bind_some
    | mod =>
      rw [ready_onArray rfl, ← h.array.mod_ready w.array.value]
      exact exists_returns_iff.trans isSome_bind_some
    | exist =>
      rw [ready_onArray rfl, ← h.array.exist_ready]
      exact exists_returns_iff.trans isSome_bind_some
    | get =>
      rw [ready_onArray rfl, ← h.array.get_ready (hs.array key)]
      refine exists_returns_iff.trans ?_
      cases kvsArrayGet s.array key with
      | none => rfl
      | some r => exact isSome_bind_some
    | save =>
      rw [Ready, ← h.save_ready]
      exact exists_returns_iff
    | rset => exact h.rset_ready hw
    | rget => exact iff_of_true (h.exists_rget hs) Bool.false_ne_true.elim
    | hset => exact h.hset_ready
    | hget => exact h.hget_ready hs
    | zadd =>
      obtain ⟨c, hret, -⟩ := h.zadd (P := P) hw key value
      exact iff_of_true ⟨c, hret⟩ Bool.false_ne_true.elim
    | zrem =>
      obtain ⟨c, hret, -⟩ := h.zrem key
      exact iff_of_true ⟨c, hret⟩ Bool.false_ne_true.elim
    | zrange =>
      obtain ⟨c, hret, -⟩ := h.zrange (P := P) key value
      exact iff_of_true ⟨c, hret⟩ Bool.false_ne_true.elim
    | rdel | rmod | rexist | hdel | hmod | hexist =>
      exact iff_of_true ⟨_, .some _⟩ Bool.false_ne_true.elim

/-- Whatever a command does, it leaves the engines intact. -/
theorem Store.Sane.step (h : s.Sane) (hw : s.Given w)
    {n : ℕ} (hres : runCommand P n w s cfg cmd key value = some (t, s')) : s'.Sane := by
  have hret := (runCommand_growing P cfg w s cmd key value).returns hres
  have hsame : ∀ {c : List UInt8 × Store S},
      Returns (fun n => runCommand P n w s cfg cmd key value) c → c.2 = s' := by
    intro c hc
    exact congrArg Prod.snd (hc.unique hret)
  cases cmd with
  | none =>
    cases hres
    exact h
  | some c =>
    cases c with
    | set =>
      obtain ⟨r, hr, hres⟩ := Option.bind_eq_some_iff.mp hres
      cases hres
      exact ⟨h.array.set hr, h.tree, h.hash, h.list⟩
    | get =>
      obtain ⟨r, hr, hres⟩ := Option.bind_eq_some_iff.mp hres
      obtain ⟨result, -, hres⟩ := Option.bind_eq_some_iff.mp hres
      cases hres
      exact ⟨h.array.get hr, h.tree, h.hash, h.list⟩
    | del =>
      obtain ⟨r, hr, hres⟩ := Option.bind_eq_some_iff.mp hres
      cases hres
      exact ⟨h.array.del hr, h.tree, h.hash, h.list⟩
    | mod =>
      obtain ⟨r, hr, hres⟩ := Option.bind_eq_some_iff.mp hres
      cases hres
      exact ⟨h.array.mod hr, h.tree, h.hash, h.list⟩
    | exist =>
      obtain ⟨r, hr, hres⟩ := Option.bind_eq_some_iff.mp hres
      cases hres
      exact ⟨h.array.exist hr, h.tree, h.hash, h.list⟩
    | save =>
      obtain ⟨r, -, hres⟩ := Option.bind_eq_some_iff.mp hres
      cases hres
      exact ⟨h.array, h.tree, h.hash, h.list⟩
    | rset =>
      obtain ⟨r, hr, hres⟩ := Option.bind_eq_some_iff.mp hres
      cases hres
      exact ⟨h.array, h.exists_tree hw.node hr, h.hash, h.list⟩
    | rget | hget =>
      obtain ⟨v, -, hres⟩ := Option.bind_eq_some_iff.mp hres
      obtain ⟨result, -, hres⟩ := Option.bind_eq_some_iff.mp hres
      cases hres
      exact h
    | hset =>
      obtain ⟨r, hr, hres⟩ := Option.bind_eq_some_iff.mp hres
      cases hres
      exact ⟨h.array, h.tree, h.exists_hash hr, h.list⟩
    | zadd =>
      obtain ⟨c, hc, hsane⟩ := h.zadd (P := P) hw key value
      rwa [hsame hc] at hsane
    | zrem =>
      obtain ⟨c, hc, hsane⟩ := h.zrem key
      rwa [hsame hc] at hsane
    | zrange =>
      obtain ⟨c, hc, hs⟩ := h.zrange (P := P) key value
      rw [← hsame hc, hs]
      exact h
    | rdel | rmod | rexist | hdel | hmod | hexist =>
      cases hres
      exact h

omit [Comparisons S] in
/-- A load passes its records to the engines one by one. -/
theorem Store.Sane.record (h : s.Sane) {n : ℕ} {a : EngineAlloc} {r : RdbRecord} {e : Engines}
    (hfree : ∀ p, a.node.node = some p → s.rbtree.Free p)
    (hr : passRecord n a s.toEngines r = some e) : Store.Sane { s with toEngines := e } := by
  rw [passRecord] at hr
  split_ifs at hr
  · obtain ⟨x, hx, rfl⟩ := Option.map_eq_some_iff.mp hr
    exact ⟨h.array.set hx, h.tree, h.hash, h.list⟩
  · obtain ⟨x, hx, rfl⟩ := Option.map_eq_some_iff.mp hr
    exact ⟨h.array, h.exists_tree hfree hx, h.hash, h.list⟩
  · obtain ⟨x, hx, rfl⟩ := Option.map_eq_some_iff.mp hr
    exact ⟨h.array, h.tree, h.exists_hash hx, h.list⟩
  · cases hr
    exact h

omit [Zero S] in
theorem kvsTcpProtocol_store {n len : ℕ} {buffer : List UInt8} {x : Handled S}
    (hx : kvsTcpProtocol P cfg n w s buffer len = some x) : x.store = s ∨
      ∃ cmd key value t, runCommand P n w s cfg cmd key value = some (t, x.store) := by
  by_cases hacc : Accepted buffer len
  · rw [hacc.kvsTcpProtocol] at hx
    obtain ⟨p, -, hx⟩ := Option.bind_eq_some_iff.mp hx
    obtain ⟨c, hc, hx⟩ := Option.bind_eq_some_iff.mp hx
    cases hx
    exact .inr ⟨_, _, _, c.1, hc⟩
  · exact .inl (kvsTcpProtocol_rejected hacc hx)

end Commands

/-- The server as it is started. The sentinel of the tree and the header of the skip list have blocks
of their own, and the slots of the hash table are empty. -/
structure Store.Started {S : Type*} [Zero S] (s : Store S) : Prop where
  array : s.array = kvsArrayCreate
  tree : ∃ T p, p ≠ null ∧ s.rbtree = kvsRbtreeCreate T p
  hash : s.hash = kvsHashCreate fun _ => some []
  list : ∃ nodes p, p ≠ null ∧ s.skiptable = kvsSkiptableCreate nodes p

section Reached

variable {S : Type*} [Comparisons S] [Zero S] (P : Scores S) (cfg : ServerConfig)

/-- The states of the server: behind its start, a record of a file that is loaded, and a request of
some client. -/
inductive Store.Reached : Store S → Prop
  | start {s : Store S} (h : s.Started) : Reached s
  | record {s : Store S} {n : ℕ} {a : EngineAlloc} {r : RdbRecord} {e : Engines} (h : Reached s)
    (hfree : ∀ p, a.node.node = some p → s.rbtree.Free p)
    (hr : passRecord n a s.toEngines r = some e) : Reached { s with toEngines := e }
  | request {s : Store S} {n len : ℕ} {w : Host} {buffer : List UInt8} {x : Handled S}
    (h : Reached s) (hw : s.Given w)
    (hx : kvsTcpProtocol P cfg n w s buffer len = some x) : Reached x.store

variable {P cfg}

theorem Store.Reached.sane {s : Store S} (h : s.Reached P cfg) : s.Sane := by
  induction h with
  | @start s h =>
    obtain ⟨T, p, hp, htree⟩ := h.tree
    obtain ⟨nodes, q, hq, hlist⟩ := h.list
    refine ⟨?_, ⟨fun _ => none, ?_⟩, ⟨fun _ => none, ?_⟩, [], ?_⟩
    · rw [h.array]
      exact .create
    · rw [htree]
      exact .create hp
    · rw [h.hash]
      exact .create
    · rw [hlist]
      exact .create nodes hq
  | record _ hfree hr ih => exact ih.record hfree hr
  | request _ hw hx ih =>
    obtain hsame | ⟨cmd, key, value, t, hrun⟩ := kvsTcpProtocol_store hx
    · rw [hsame]
      exact ih
    · exact ih.step hw hrun

end Reached

end KvStore
