import KvStore.Array.Returns
import KvStore.Protocol.Serve
import KvStore.Protocol.SortedSet

/-! The server as its clients know it: a map for each engine and one sorted set, and what every
command does to them, with whatever arguments. -/
namespace KvStore
open KeyValue Fuel KvsArray

/-- What a command asks for. Without its arguments it is `refused`, by the array behind its mutex, or
it `leaks` this mutex. -/
inductive Task (S : Type*)
  | call (e : Engine) (c : Call CString CString)
  | refused (e : Engine) (text : List UInt8)
  | leaks (text : List UInt8)
  | member (c : SetCall S)
  | save
  | unknown

namespace Task

variable {S : Type*} (e : Engine)

def set : Option CString → Option CString → Task S
  | some k, some v => call e (.set k v)
  | _, _ => refused e errorText

def get : Option CString → Task S
  | some k => call e (.get k)
  | none => refused e noExistText

/-- `GET`, `DEL` and `MOD` on the array keep the mutex when an argument is missing. -/
def arrayGet : Option CString → Task S
  | some k => call .array (.get k)
  | none => leaks noExistText

def del : Option CString → Task S
  | some k => call .array (.del k)
  | none => leaks errorText

def mod : Option CString → Option CString → Task S
  | some k, some v => call .array (.mod k v)
  | _, _ => leaks errorText

def exist : Option CString → Task S
  | some k => call .array (.exist k)
  | none => refused .array noExistText

theorem set_refused {e : Engine} {key value : Option CString} (h : key = none ∨ value = none) :
    (set e key value : Task S) = refused e errorText := by
  obtain rfl | rfl := h
  · rfl
  · cases key with
    | none => rfl
    | some k => rfl

theorem mod_leaks {key value : Option CString} (h : key = none ∨ value = none) :
    (mod key value : Task S) = leaks errorText := by
  obtain rfl | rfl := h
  · rfl
  · cases key with
    | none => rfl
    | some k => rfl

/-- The key has a slot in the table of the hash engine. -/
def InTable : Task S → Prop
  | call .hash c => HashTable.InRange c.key
  | _ => True

end Task

/-- The task of a command with its arguments. -/
def Scores.task {S : Type*} (P : Scores S) (cmd : Option Cmd) (key value : Option CString) : Task S :=
  match cmd with
  | some .set => .set .array key value
  | some .get => .arrayGet key
  | some .del => .del key
  | some .mod => .mod key value
  | some .exist => .exist key
  | some .rset => .set .tree key value
  | some .rget => .get .tree key
  | some .hset => .set .hash key value
  | some .hget => .get .hash key
  | some .zadd => .member (P.zaddCall key value)
  | some .zrem => .member (Scores.zremCall key)
  | some .zrange => .member (P.zrangeCall key value)
  | some .save => .save
  | _ => .unknown

/-- The answer of an engine that holds a map. -/
def Engine.answer (e : Engine) (m : CString → Option CString) : Call CString CString → List UInt8
  | .set k _ => if e ≠ .tree ∧ (m k).isSome then existText else okText
  | .get k => (m k).elim noExistText CString.bytes
  | .mod k _ => if (m k).isSome then okText else noExistText
  | .del k => if (m k).isSome then okText else noExistText
  | .exist k => if (m k).isSome then existText else noExistText

/-- The array holds its map, or it has holes from a `DEL` that found its key, or its mutex is kept. -/
inductive ArrayState
  | sound
  | holes
  | held

/-- The maps of the engines and the sorted set. The map of the array counts as long as it is sound. -/
structure Shelf (S : Type*) [LinearOrder S] where
  maps : Engine → CString → Option CString
  set : SortedSet S
  array : ArrayState

namespace Shelf

variable {S : Type*} [LinearOrder S]

def empty : Shelf S := ⟨fun _ _ => none, .empty, .sound⟩

def call (Q : Shelf S) (e : Engine) (c : Call CString CString) : Shelf S :=
  { Q with maps := Function.update Q.maps e (next (Q.maps e) c) }

theorem call_self (Q : Shelf S) (e : Engine) (c : Call CString CString) :
    (Q.call e c).maps e = next (Q.maps e) c := Function.update_self ..

theorem call_of_ne (Q : Shelf S) {e e' : Engine} (he : e' ≠ e) (c : Call CString CString) :
    (Q.call e c).maps e' = Q.maps e' := Function.update_of_ne he ..

/-- Nothing is deleted, and the array has a slot left for a `SET`. -/
def Plain (Q : Shelf S) : Engine → Call CString CString → Prop
  | _, .del _ => False
  | .array, .set _ _ => ¬ Full (Q.maps .array)
  | _, _ => True

end Shelf

variable {S : Type*} [LinearOrder S]

/-- The answer to a command, and what is on the shelf behind it. A `DEL` that finds its key makes
holes, and what an array with holes answers to a call with its arguments is left open. Nothing is
answered by an array whose mutex is kept. -/
inductive ShelfSpec (P : Scores S) : Shelf S → Task S → List UInt8 → Shelf S → Prop
  | call {Q : Shelf S} {e : Engine} {c : Call CString CString}
    (sound : e = .array → Q.array = .sound) (plain : Q.Plain e c) :
    ShelfSpec P Q (.call e c) (e.answer (Q.maps e) c) (Q.call e c)
  | full {Q : Shelf S} (k v : CString) (sound : Q.array = .sound) (h : Full (Q.maps .array)) :
    ShelfSpec P Q (.call .array (.set k v)) errorText Q
  | deleted {Q : Shelf S} {k : CString} (sound : Q.array = .sound) (h : (Q.maps .array k).isSome) :
    ShelfSpec P Q (.call .array (.del k)) okText { Q with array := .holes }
  | absent {Q : Shelf S} {k j : CString} (sound : Q.array = .sound) (h : Q.maps .array k = none)
    (other : (Q.maps .array j).isSome) : ShelfSpec P Q (.call .array (.del k)) noExistText Q
  | empty {Q : Shelf S} (k : CString) (sound : Q.array = .sound) (h : ∀ j, Q.maps .array j = none) :
    ShelfSpec P Q (.call .array (.del k)) okText Q
  | open {Q : Shelf S} (holes : Q.array = .holes) (c : Call CString CString) (t : List UInt8) :
    ShelfSpec P Q (.call .array c) t Q
  | refused {Q : Shelf S} {e : Engine} (free : e = .array → Q.array ≠ .held) (t : List UInt8) :
    ShelfSpec P Q (.refused e t) t Q
  | leaks {Q : Shelf S} (free : Q.array ≠ .held) (t : List UInt8) :
    ShelfSpec P Q (.leaks t) t { Q with array := .held }
  | member {Q : Shelf S} {c : SetCall S} {t : List UInt8} {M : SortedSet S}
    (h : SetSpec P Q.set c t M) : ShelfSpec P Q (.member c) t { Q with set := M }
  | saved (Q : Shelf S) : ShelfSpec P Q .save savedText Q
  | saveError (Q : Shelf S) : ShelfSpec P Q .save saveErrorText Q
  | unknown (Q : Shelf S) : ShelfSpec P Q .unknown unknownText Q

/-- The value of a call leaves room for its NUL in the result. -/
def KeyValue.Call.Fits : Call CString CString → Prop
  | .set _ v => v.length < resultSize
  | .mod _ v => v.length < resultSize
  | _ => True

theorem Short.behind {m : CString → Option CString} {c : Call CString CString} (h : Short m)
    (hc : c.Fits) : Short (KeyValue.next m c) := by
  have hput : ∀ k v, v.length < resultSize → Short (Function.update m k (some v)) := by
    intro k v hv j w hj
    by_cases hjk : j = k
    · rw [hjk, Function.update_self, Option.some.injEq] at hj
      exact hj ▸ hv
    · rw [Function.update_of_ne hjk] at hj
      exact h j w hj
  cases c with
  | get k => exact h
  | exist k => exact h
  | set k v =>
    rw [KeyValue.next]
    split_ifs
    · exact h
    · exact hput k v hc
  | mod k v =>
    rw [KeyValue.next]
    split_ifs
    · exact hput k v hc
    · exact h
  | del k =>
    intro j w hj
    by_cases hjk : j = k
    · rw [KeyValue.next, hjk, Function.update_self] at hj
      cases hj
    · rw [KeyValue.next, Function.update_of_ne hjk] at hj
      exact h j w hj

section Shows

variable [Zero S] {P : Scores S} {cfg : ServerConfig} {w : Host} {s s' : Store S} {Q : Shelf S}
  {e : Engine} {c : Call CString CString} {k v : CString} {key value : Option CString}

/-- The store holds what is on the shelf. -/
structure Store.Shows (s : Store S) (Q : Shelf S) : Prop where
  keeps : ∀ e, (e = .array → Q.array = .sound) → s.Keeps e (Q.maps e)
  set : s.skiptable.Stands Q.set
  held : Q.array = .held → s.array.locked = true

theorem Store.Shows.fresh {T : Rbtree} {p q : Ptr} {nodes : Ptr → Option (SkipNode S)}
    (hp : p ≠ null) (hq : q ≠ null) (harray : s.array = kvsArrayCreate)
    (htree : s.rbtree = kvsRbtreeCreate T p) (hhash : s.hash = kvsHashCreate fun _ => some [])
    (hlist : s.skiptable = kvsSkiptableCreate nodes q) : s.Shows .empty := by
  refine ⟨fun e _ => .fresh hp htree hhash e fun _ => harray, ?_, by rintro ⟨⟩⟩
  rw [hlist]
  exact .create nodes hq

/-- A call of one engine. -/
theorem Store.Shows.behind (h : s.Shows Q) (hsound : e = .array → Q.array = .sound)
    (hkeeps : s'.Keeps e (next (Q.maps e) c))
    (hother : ∀ e' m', e' ≠ e → s.Keeps e' m' → s'.Keeps e' m')
    (harray : e ≠ .array → s'.array = s.array)
    (hset : s'.skiptable = s.skiptable) : s'.Shows (Q.call e c) := by
  refine ⟨fun e' he' => ?_, hset ▸ h.set, fun hheld => ?_⟩
  · by_cases he : e' = e
    · rw [he, Q.call_self]
      exact hkeeps
    · rw [Q.call_of_ne he]
      exact hother e' _ he (h.keeps e' he')
  · have hheld : Q.array = .held := hheld
    have he : e ≠ .array := by
      intro he
      rw [hsound he] at hheld
      cases hheld
    rw [harray he]
    exact h.held hheld

/-- The array may be anything once it is no map. -/
theorem Store.Shows.holed (h : s.Shows Q) (a : KvsArray) :
    Store.Shows { s with array := a } { Q with array := .holes } := by
  refine ⟨fun e he => ?_, h.set, by simp⟩
  cases e with
  | array => cases he rfl
  | tree => exact h.keeps .tree (by simp)
  | hash => exact h.keeps .hash (by simp)

theorem Store.Shows.leaked (h : s.Shows Q) {a : KvsArray} (ha : a.locked = true) :
    Store.Shows { s with array := a } { Q with array := .held } := by
  refine ⟨fun e he => ?_, h.set, fun _ => ha⟩
  cases e with
  | array => cases he rfl
  | tree => exact h.keeps .tree (by simp)
  | hash => exact h.keeps .hash (by simp)

omit [Zero S] in
/-- Whoever gets the mutex finds it free. -/
theorem Shelf.not_held {Q : Shelf S} (hheld : Q.array = .held → s.array.locked = true)
    (hl : s.array.locked = false) : Q.array ≠ .held := by
  intro hQ
  rw [hheld hQ] at hl
  cases hl

/-- The command comes back as the shelf says. -/
def Complies (P : Scores S) (Q : Shelf S) (τ : Task S) (f : ℕ → Option (List UInt8 × Store S)) :
    Prop :=
  ∃ t s' Q', Returns f (t, s') ∧ ShelfSpec P Q τ t Q' ∧ s'.Shows Q'

theorem Complies.of_eq {τ : Task S} {Q' : Shelf S} {t : List UInt8}
    {f : ℕ → Option (List UInt8 × Store S)} (hf : ∀ n, f n = some (t, s'))
    (hspec : ShelfSpec P Q τ t Q') (hs : s'.Shows Q') : Complies P Q τ f :=
  ⟨t, s', Q', .of_eq hf, hspec, hs⟩

/-- The array answers a call from its map. -/
theorem Store.Shows.complies_array (h : s.Shows Q) (hsound : Q.array = .sound) {t : List UInt8}
    {a : KvsArray} {f : ℕ → Option (List UInt8 × Store S)}
    (hf : ∀ n, f n = some (t, { s with array := a })) (ht : t = Engine.answer .array (Q.maps .array) c)
    (ha : a.Dense (next (Q.maps .array) c)) (hfits : c.Fits) (hplain : Q.Plain .array c) :
    Complies P Q (.call .array c) f := by
  subst ht
  refine .of_eq hf (.call (fun _ => hsound) hplain)
    (h.behind (fun _ => hsound) ?_ ?_ (absurd rfl) rfl)
  · exact ⟨ha, (h.keeps .array fun _ => hsound).2.behind hfits⟩
  · intro e' m' he hm
    cases e' with
    | array => exact absurd rfl he
    | tree => exact hm
    | hash => exact hm

theorem Store.Shows.runSet (h : s.Shows Q) (hsound : Q.array = .sound) (hw : Grants s w)
    (hvalue : ∀ v, value = some v → v.length < resultSize) :
    Complies P Q (.set .array key value) fun n => runCommand P n w s cfg (some .set) key value := by
  obtain ⟨hd, -⟩ := h.keeps .array fun _ => hsound
  obtain ⟨k, v, rfl, rfl⟩ | hnone := given_or_missing key value
  · by_cases hfull : s.array.total = kvsArraySize
    · refine .of_eq (fun n => ?_) (.full k v hsound (hd.full_iff.mpr hfull)) h
      simp [runCommand, hd.toTidy.set_full hfull, retText]
    · obtain ⟨a, hset, ha, -⟩ := hd.set hw.array (lt_of_le_of_ne hd.bound hfull) k v
      refine h.complies_array hsound (t := if (Q.maps .array k).isSome then existText else okText)
        (fun n => ?_) ?_ ha (hvalue v rfl) (hd.full_iff.not.mpr hfull)
      · simp only [runCommand, hset, Option.bind_some, retText_set]
      · simp [Engine.answer]
  · rw [Task.set_refused hnone]
    refine .of_eq (fun n => ?_) (.refused (fun _ => by simp [hsound]) errorText) h
    simp [runCommand, kvsArraySet_refused hnone, hd.unlocked, retText]

theorem Store.Shows.runGet (h : s.Shows Q) (hsound : Q.array = .sound) :
    Complies P Q (.arrayGet key) fun n => runCommand P n w s cfg (some .get) key value := by
  obtain ⟨hd, hs⟩ := h.keeps .array fun _ => hsound
  cases key with
  | none =>
    refine .of_eq (fun n => ?_) (.leaks (by simp [hsound]) noExistText)
      (h.leaked (a := { s.array with locked := true }) rfl)
    simp [runCommand, kvsArrayGet_refused, hd.unlocked, getText]
  | some k =>
    refine h.complies_array hsound (c := .get k) (a := s.array) (fun n => ?_) rfl hd trivial trivial
    simp only [runCommand, hd.get k, Option.bind_some, getText_elim hs, Engine.answer]

theorem Store.Shows.runDel (h : s.Shows Q) (hsound : Q.array = .sound) :
    Complies P Q (.del key) fun n => runCommand P n w s cfg (some .del) key value := by
  obtain ⟨hd, -⟩ := h.keeps .array fun _ => hsound
  cases key with
  | none =>
    refine .of_eq (fun n => ?_) (.leaks (by simp [hsound]) errorText)
      (h.leaked (a := { s.array with locked := true }) rfl)
    simp [runCommand, kvsArrayDel_refused, hd.unlocked, retText]
  | some k =>
    have hheld := hd.stores.held_iff hd.toTidy (k := k)
    obtain ⟨i, v, hi, hlive, hdel⟩ | ⟨hk, hdel⟩ := hd.toTidy.del_cases (hd.unobstructed false k)
    · have hthere : (Q.maps .array k).isSome := hheld.mp ⟨i, hi, by rw [hlive]; rfl⟩
      refine .of_eq (fun n => ?_) (.deleted hsound hthere) (h.holed (s.array.cleared i))
      simp [runCommand, hdel, retText]
    · have hno : Q.maps .array k = none := Option.not_isSome_iff_eq_none.mp (hheld.not.mp hk)
      by_cases hempty : s.array.total = 0
      · refine .of_eq (fun n => ?_) (.empty k hsound (hd.total_eq_zero_iff.mp hempty)) h
        simp [runCommand, hdel, hempty, retText]
      · obtain ⟨j, hj⟩ := not_forall.mp (hd.total_eq_zero_iff.not.mp hempty)
        refine .of_eq (fun n => ?_) (.absent hsound hno (Option.isSome_iff_ne_none.mpr hj)) h
        have hpos : ¬ (s.array.total : ℤ) < 0 := by omega
        simp [runCommand, hdel, hempty, hpos, retText]

theorem Store.Shows.runMod (h : s.Shows Q) (hsound : Q.array = .sound) (hw : Grants s w)
    (hvalue : ∀ v, value = some v → v.length < resultSize) :
    Complies P Q (.mod key value) fun n => runCommand P n w s cfg (some .mod) key value := by
  obtain ⟨hd, -⟩ := h.keeps .array fun _ => hsound
  obtain ⟨k, v, rfl, rfl⟩ | hnone := given_or_missing key value
  · obtain ⟨c, a, hmod, hc, ha⟩ := hd.mod k v
    have hroom : w.array.value = true := by rw [hw.array]
    refine h.complies_array hsound (t := retText c noExistText) (fun n => ?_) ?_ ha (hvalue v rfl)
      trivial
    · simp only [runCommand, hroom, hmod, Option.bind_some]
    · rw [Engine.answer]
      by_cases hk : (Q.maps .array k).isSome
      · rw [if_pos hk] at hc ⊢
        rw [hc]
        rfl
      · rw [if_neg hk] at hc ⊢
        rw [retText, if_neg hc.not_gt, if_neg hc.ne']
  · rw [Task.mod_leaks hnone]
    refine .of_eq (fun n => ?_) (.leaks (by simp [hsound]) errorText)
      (h.leaked (a := { s.array with locked := true }) rfl)
    simp [runCommand, kvsArrayMod_refused hnone, hd.unlocked, retText]

theorem Store.Shows.runExist (h : s.Shows Q) (hsound : Q.array = .sound) :
    Complies P Q (.exist key) fun n => runCommand P n w s cfg (some .exist) key value := by
  obtain ⟨hd, -⟩ := h.keeps .array fun _ => hsound
  cases key with
  | none =>
    refine .of_eq (fun n => ?_) (.refused (fun _ => by simp [hsound]) noExistText) h
    simp [runCommand, kvsArrayExist_refused, hd.unlocked]
  | some k =>
    refine h.complies_array hsound (c := .exist k) (a := s.array) (fun n => ?_) rfl hd trivial trivial
    simp only [runCommand, hd.exist k, Option.bind_some, Engine.answer]
    cases (Q.maps .array k).isSome with
    | false => rfl
    | true => rfl

/-- A query that the tree answers. -/
theorem Store.Shows.complies_tree (cfg : ServerConfig) (h : s.Shows Q) (hw : Grants s w) (q : Query)
    (hvalue : ∀ v, q.value = some v → v.length < resultSize) :
    Complies P Q (.call .tree q.call) fun n =>
      runCommand P n w s cfg (some (q.cmd .tree)) (some q.key) q.value := by
  have hkeeps := h.keeps .tree (by simp)
  obtain ⟨T, hret, hT⟩ := hkeeps.runTree P cfg (q := q) hw
  have hanswer : q.answer .tree (Q.maps .tree) = Engine.answer .tree (Q.maps .tree) q.call := by
    cases q with
    | set k v => rfl
    | get k => rfl
  rw [hanswer] at hret
  have hfits : q.call.Fits := by
    cases q with
    | set k v => exact hvalue v rfl
    | get k => trivial
  have hplain : Q.Plain .tree q.call := by
    cases q with
    | set k v => trivial
    | get k => trivial
  refine ⟨_, _, _, hret, .call (by simp) hplain,
    h.behind (by simp) ⟨hT, hkeeps.2.behind hfits⟩ ?_ (fun _ => rfl) rfl⟩
  intro e' m' he hm
  cases e' with
  | array => exact hm
  | tree => exact absurd rfl he
  | hash => exact hm

theorem Store.Shows.runRset (h : s.Shows Q) (hw : Grants s w)
    (hvalue : ∀ v, value = some v → v.length < resultSize) :
    Complies P Q (.set .tree key value) fun n => runCommand P n w s cfg (some .rset) key value := by
  cases key with
  | none => exact .of_eq (fun n => rfl) (.refused (e := .tree) (by simp) errorText) h
  | some k =>
    cases value with
    | none => exact .of_eq (fun n => rfl) (.refused (e := .tree) (by simp) errorText) h
    | some v => exact h.complies_tree cfg hw (.set k v) hvalue

theorem Store.Shows.runRget (h : s.Shows Q) (hw : Grants s w) :
    Complies P Q (.get .tree key) fun n => runCommand P n w s cfg (some .rget) key value := by
  cases key with
  | none => exact .of_eq (fun n => rfl) (.refused (e := .tree) (by simp) noExistText) h
  | some k => exact h.complies_tree cfg hw (.get k) (by simp [Query.value])

/-- The hash engine does so for a key that has a slot. -/
theorem Store.Shows.complies_hash (h : s.Shows Q) {t : List UInt8} {table : HashTable}
    {f : ℕ → Option (List UInt8 × Store S)}
    (hf : ∀ n, f n = some (t, { s with hash := table })) (ht : t = Engine.answer .hash (Q.maps .hash) c)
    (htable : table.Maps (next (Q.maps .hash) c)) (hfits : c.Fits) (hplain : Q.Plain .hash c) :
    Complies P Q (.call .hash c) f := by
  subst ht
  refine .of_eq hf (.call (by simp) hplain) (h.behind (by simp) ?_ ?_ (fun _ => rfl) rfl)
  · exact ⟨htable, (h.keeps .hash (by simp)).2.behind hfits⟩
  · intro e' m' he hm
    cases e' with
    | array => exact hm
    | tree => exact hm
    | hash => exact absurd rfl he

theorem Store.Shows.runHset (h : s.Shows Q) (hw : Grants s w)
    (hvalue : ∀ v, value = some v → v.length < resultSize)
    (hrange : (Task.set (S := S) .hash key value).InTable) :
    Complies P Q (.set .hash key value) fun n => runCommand P n w s cfg (some .hset) key value := by
  cases key with
  | none => exact .of_eq (fun n => rfl) (.refused (e := .hash) (by simp) errorText) h
  | some k =>
    cases value with
    | none => exact .of_eq (fun n => rfl) (.refused (e := .hash) (by simp) errorText) h
    | some v =>
      obtain ⟨hm, -⟩ := h.keeps .hash (by simp)
      have hk : HashTable.InRange k := hrange
      obtain ⟨table, hset, htable⟩ := HashTable.Maps.set hm hk v
      refine h.complies_hash (t := if (Q.maps .hash k).isSome then existText else okText)
        (fun n => ?_) ?_ htable (hvalue v rfl) trivial
      · simp only [runCommand, hw.hash, hset, Option.bind_some, retText_set]
      · simp [Engine.answer]

theorem Store.Shows.runHget (h : s.Shows Q) (hrange : (Task.get (S := S) .hash key).InTable) :
    Complies P Q (.get .hash key) fun n => runCommand P n w s cfg (some .hget) key value := by
  cases key with
  | none => exact .of_eq (fun n => rfl) (.refused (e := .hash) (by simp) noExistText) h
  | some k =>
    obtain ⟨hm, hs⟩ := h.keeps .hash (by simp)
    have hk : HashTable.InRange k := hrange
    refine h.complies_hash (c := .get k) (t := (Q.maps .hash k).elim noExistText CString.bytes)
      (fun n => ?_) rfl hm trivial trivial
    simp only [runCommand, HashTable.Maps.get hm hk, Option.bind_some, getText_elim hs]

omit [Zero S] in
/-- A command on the set leaves the engines as they are. -/
theorem setCommand_engines {cmd : Option Cmd} {c : SetCall S} {n : ℕ} {t : List UInt8}
    (hcall : P.call cmd key value = some c)
    (hres : runCommand P n w s cfg cmd key value = some (t, s')) : s'.toEngines = s.toEngines := by
  cases cmd with
  | none => cases hcall
  | some x =>
    cases x with
    | zadd =>
      change runZadd P n w s key value = _ at hres
      rw [runZadd.eq_def] at hres
      split at hres
      · split at hres
        · cases hres
          rfl
        · obtain ⟨r, -, hres⟩ := Option.bind_eq_some_iff.mp hres
          cases hres
          rfl
      · cases hres
        rfl
    | zrem =>
      change runZrem n s key = _ at hres
      rw [runZrem.eq_def] at hres
      split at hres
      · cases hres
        rfl
      · obtain ⟨r, -, hres⟩ := Option.bind_eq_some_iff.mp hres
        cases hres
        rfl
    | zrange =>
      change runZrange P n s key value = _ at hres
      rw [runZrange.eq_def] at hres
      split at hres
      · split at hres
        · cases hres
          rfl
        · obtain ⟨r, -, hres⟩ := Option.bind_eq_some_iff.mp hres
          cases hres
          rfl
      · cases hres
        rfl
    | _ => cases hcall

omit [LinearOrder S] [Zero S] in
theorem Store.Keeps.of_engines {m : CString → Option CString} (h : s.Keeps e m)
    (hsame : s'.toEngines = s.toEngines) : s'.Keeps e m := by
  cases e with
  | array =>
    change s'.toEngines.array.Dense m ∧ _
    rw [hsame]
    exact h
  | tree =>
    change s'.toEngines.rbtree.Maps m ∧ _
    rw [hsame]
    exact h
  | hash =>
    change s'.toEngines.hash.Maps m ∧ _
    rw [hsame]
    exact h

theorem Store.Shows.complies_member {cmd : Option Cmd} {c : SetCall S} (h : s.Shows Q)
    (hw : GrantsMember s (0, w)) (hcall : P.call cmd key value = some c) :
    Complies P Q (.member c) fun n => runCommand P n w s cfg cmd key value := by
  have hobeys : Obeys P Q.set c fun n => runCommand P n w s cfg cmd key value :=
    h.set.runCommand hw hcall
  obtain ⟨t, s', M, hret, hspec, hM⟩ := hobeys
  obtain ⟨n, hn⟩ := id hret
  have hsame := setCommand_engines hcall (hn n le_rfl)
  refine ⟨t, s', { Q with set := M }, hret, .member hspec, fun e he => ?_, hM, fun hheld => ?_⟩
  · exact (h.keeps e he).of_engines hsame
  · rw [congrArg Engines.array hsame]
    exact h.held hheld

omit [Zero S] in
/-- A command of the hash engine comes back only for a key with a slot. -/
theorem runCommand_inTable {cmd : Option Cmd} {n : ℕ} {t : List UInt8}
    (hres : runCommand P n w s cfg cmd key value = some (t, s')) :
    (P.task cmd key value).InTable := by
  have hslot : ∀ k, s.hash.chainOf k ≠ none → HashTable.InRange k := by
    intro k hne
    by_contra hk
    have hno : HashTable.slot (HashTable.hash k maxTableSize) = none := dif_neg hk
    exact hne (by rw [HashTable.chainOf, hno, Option.bind_none])
  cases cmd with
  | none => trivial
  | some c =>
    cases c with
    | hset =>
      cases key with
      | none => trivial
      | some k =>
        cases value with
        | none => trivial
        | some v =>
          refine hslot k fun hno => ?_
          simp [runCommand, kvsHashSet, hno] at hres
    | hget =>
      cases key with
      | none => trivial
      | some k =>
        refine hslot k fun hno => ?_
        simp [runCommand, kvsHashGet, hno] at hres
    | set | mod | rset =>
      cases key with
      | none => trivial
      | some k =>
        cases value with
        | none => trivial
        | some v => trivial
    | get | del | exist | rget =>
      cases key with
      | none => trivial
      | some k => trivial
    | _ => trivial

/-- An array that is no map any more does as the shelf says, as far as it answers. -/
theorem Store.Shows.step_open {c : Cmd} {n : ℕ} {t : List UInt8} (h : s.Shows Q)
    (hopen : Q.array ≠ .sound) (hc : c.onArray = true)
    (hres : runCommand P n w s cfg (some c) key value = some (t, s')) :
    ∃ Q', ShelfSpec P Q (P.task (some c) key value) t Q' ∧ s'.Shows Q' := by
  have hl : s.array.locked = false := by
    cases hl : s.array.locked with
    | false => rfl
    | true =>
      rw [runCommand_waits hl hc] at hres
      cases hres
  have hfree := Shelf.not_held h.held hl
  obtain ⟨maps, M, array⟩ := Q
  obtain rfl : array = .holes := by
    cases array with
    | sound => exact absurd rfl hopen
    | holes => rfl
    | held => exact absurd rfl hfree
  have hshows : ∀ a, Store.Shows { s with array := a } ⟨maps, M, .holes⟩ := h.holed
  cases c with
  | set =>
    obtain ⟨r, hr, hres⟩ := Option.bind_eq_some_iff.mp hres
    cases hres
    obtain ⟨k, v, rfl, rfl⟩ | hnone := given_or_missing key value
    · exact ⟨_, .open rfl _ _, hshows _⟩
    · rw [kvsArraySet_refused hnone, hl] at hr
      cases hr
      have htask : P.task (some .set) key value = .refused .array errorText := Task.set_refused hnone
      rw [htask]
      exact ⟨_, .refused (fun _ => hfree) errorText, hshows _⟩
  | get =>
    obtain ⟨r, hr, hres⟩ := Option.bind_eq_some_iff.mp hres
    obtain ⟨result, hresult, hres⟩ := Option.bind_eq_some_iff.mp hres
    cases hres
    cases key with
    | none =>
      rw [kvsArrayGet_refused, hl] at hr
      cases hr
      cases hresult
      exact ⟨_, .leaks hfree noExistText, h.leaked rfl⟩
    | some k => exact ⟨_, .open rfl _ _, hshows _⟩
  | del =>
    obtain ⟨r, hr, hres⟩ := Option.bind_eq_some_iff.mp hres
    cases hres
    cases key with
    | none =>
      rw [kvsArrayDel_refused, hl] at hr
      cases hr
      exact ⟨_, .leaks hfree errorText, h.leaked rfl⟩
    | some k => exact ⟨_, .open rfl _ _, hshows _⟩
  | mod =>
    obtain ⟨r, hr, hres⟩ := Option.bind_eq_some_iff.mp hres
    cases hres
    obtain ⟨k, v, rfl, rfl⟩ | hnone := given_or_missing key value
    · exact ⟨_, .open rfl _ _, hshows _⟩
    · rw [kvsArrayMod_refused hnone, hl] at hr
      cases hr
      have htask : P.task (some .mod) key value = .leaks errorText := Task.mod_leaks hnone
      rw [htask]
      exact ⟨_, .leaks hfree errorText, h.leaked rfl⟩
  | exist =>
    obtain ⟨r, hr, hres⟩ := Option.bind_eq_some_iff.mp hres
    cases hres
    cases key with
    | none =>
      rw [kvsArrayExist_refused, hl] at hr
      cases hr
      exact ⟨_, .refused (fun _ => hfree) noExistText, hshows _⟩
    | some k => exact ⟨_, .open rfl _ _, hshows _⟩
  | _ => cases hc

/-- `SAVE` changes nothing but files. -/
theorem Store.Shows.step_save {n : ℕ} {t : List UInt8} (h : s.Shows Q)
    (hres : runCommand P n w s cfg (some .save) key value = some (t, s')) :
    ShelfSpec P Q .save t Q ∧ s'.Shows Q := by
  obtain ⟨r, -, hres⟩ := Option.bind_eq_some_iff.mp hres
  cases hres
  refine ⟨?_, h.keeps, h.set, h.held⟩
  by_cases hr : r.1 < 0
  · rw [if_pos hr]
    exact .saveError Q
  · rw [if_neg hr]
    exact .saved Q

/-- Every command but `SAVE` comes back as the shelf says, as long as the array is a map or is not
asked for, and a key of the hash engine has its slot. -/
theorem Store.Shows.complies (P : Scores S) (cfg : ServerConfig) (h : s.Shows Q) (hw : Grants s w)
    (hmember : GrantsMember s (0, w)) {cmd : Option Cmd}
    (hvalue : ∀ v, value = some v → v.length < resultSize) (hsave : cmd ≠ some .save)
    (hsound : ∀ c, cmd = some c → c.onArray = true → Q.array = .sound)
    (hrange : (P.task cmd key value).InTable) :
    Complies P Q (P.task cmd key value) fun n => runCommand P n w s cfg cmd key value := by
  cases cmd with
  | none => exact .of_eq (fun n => rfl) (.unknown Q) h
  | some c =>
    cases c with
    | set => exact h.runSet (hsound _ rfl rfl) hw hvalue
    | get => exact h.runGet (hsound _ rfl rfl)
    | del => exact h.runDel (hsound _ rfl rfl)
    | mod => exact h.runMod (hsound _ rfl rfl) hw hvalue
    | exist => exact h.runExist (hsound _ rfl rfl)
    | rset => exact h.runRset hw hvalue
    | rget => exact h.runRget hw
    | hset => exact h.runHset hw hvalue hrange
    | hget => exact h.runHget hrange
    | zadd | zrem | zrange => exact h.complies_member hmember rfl
    | save => exact absurd rfl hsave
    | rdel | rmod | rexist | hdel | hmod | hexist => exact .of_eq (fun n => rfl) (.unknown Q) h

end Shows
end KvStore
