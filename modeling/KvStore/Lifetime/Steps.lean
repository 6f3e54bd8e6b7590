import KvStore.Lifetime.Saves
import KvStore.Protocol.Interchange

/-! Each step of the program against what it may do to the maps in memory and in the snapshot. -/
namespace KvStore
open KeyValue Fuel Checkpoint

/-- A save by a client is answered with its outcome. -/
def SaveTrigger.answer : SaveTrigger → Bool → Option (List UInt8)
  | request seqId _ _ _, saved =>
    some (buildTcpResponse Cmd.save.code seqId (if saved then savedText else saveErrorText))
  | thread _, _ => none

def Written (cfg : ServerConfig) (x : SaveTrigger) (V D D' : EngineMaps)
    (r : Option (List UInt8)) : Prop :=
  ∃ saved, SavedTo cfg x.io V D D' saved ∧ r = x.answer saved

/-- Maps in memory and in a snapshot: what the program is for. -/
abbrev LifeSpec (cfg : ServerConfig) :
    Memory EngineMaps → LifeEvent → Option (List UInt8) → Memory EngineMaps → Prop :=
  Step nextMaps (fun M r => r.response (M r.engine)) (Written cfg)

/-- The settings of a program that is started with a path and a configuration file. -/
def startSettings (path : Option CString) (conf : List UInt8) : RdbSettings :=
  (rdbConfigLoad (launchSettings path) (some conf)).2

/-- The keys of a request are among those in the budget. -/
structure EngineRequest.Uses (r : EngineRequest) (A H : Finset CString) : Prop where
  array : r.engine = .array → r.query.key ∈ A
  hash : r.engine = .hash → r.query.key ∈ H

section Store

variable {S : Type*} [Comparisons S] {P : Scores S} {cfg : ServerConfig} {w : Host} {s s' : Store S}
  {V : EngineMaps} {A H : Finset CString} {r : EngineRequest} {reply : List UInt8} {n : ℕ}

omit [Comparisons S] in
theorem Engines.Hold.keeps (h : s.toEngines.Hold V) (hV : V.Within A H) (x : Engine) :
    s.Keeps x (V x) := by
  have hshort : Short (V x) := fun k v hk => (hV.fits x k v hk).value_lt
  cases x with
  | array => exact ⟨h.array, hshort⟩
  | tree => exact ⟨h.tree, hshort⟩
  | hash => exact ⟨h.hash, hshort⟩

omit [Comparisons S] in
theorem Store.hold_of_keeps (h : ∀ x, s.Keeps x (V x)) : s.toEngines.Hold V :=
  ⟨(h .array).1, (h .tree).1, (h .hash).1⟩

/-- A query leaves the files alone. -/
theorem runQuery_files {x : Engine} {q : Query} {t : List UInt8}
    (h : runCommand P n w s cfg (some (q.cmd x)) (some q.key) q.value = some (t, s')) :
    s'.files = s.files := by
  cases x with
  | array =>
    cases q with
    | set k v =>
      obtain ⟨r, -, h⟩ := Option.bind_eq_some_iff.mp h
      cases h
      rfl
    | get k =>
      obtain ⟨r, -, h⟩ := Option.bind_eq_some_iff.mp h
      obtain ⟨result, -, h⟩ := Option.bind_eq_some_iff.mp h
      cases h
      rfl
  | tree =>
    cases q with
    | set k v =>
      obtain ⟨r, -, h⟩ := Option.bind_eq_some_iff.mp h
      cases h
      rfl
    | get k =>
      obtain ⟨v, -, h⟩ := Option.bind_eq_some_iff.mp h
      obtain ⟨result, -, h⟩ := Option.bind_eq_some_iff.mp h
      cases h
      rfl
  | hash =>
    cases q with
    | set k v =>
      obtain ⟨r, -, h⟩ := Option.bind_eq_some_iff.mp h
      cases h
      rfl
    | get k =>
      obtain ⟨v, -, h⟩ := Option.bind_eq_some_iff.mp h
      obtain ⟨result, -, h⟩ := Option.bind_eq_some_iff.mp h
      cases h
      rfl

theorem Serves.files (hs : Serves P cfg s r reply s') : s'.files = s.files := by
  obtain ⟨hr, w, rest, len, buffer, hw, hle, hlen, hret⟩ := hs
  obtain ⟨n, hn⟩ := hret
  have hsome := hn n le_rfl
  simp only [hr.kvsTcpProtocol hle hlen] at hsome
  obtain ⟨p, hp, hsome⟩ := Option.bind_eq_some_iff.mp hsome
  obtain ⟨⟨t, s₁⟩, hc, hsome⟩ := Option.bind_eq_some_iff.mp hsome
  obtain ⟨buffer', hsplit⟩ := hr.query.split r.cmdType r.seqId r.flags
    (hr.rest_ne_nil hle hlen ⟨n, hn⟩)
  have hpayload : p = ⟨buffer', some r.query.key, r.query.value⟩ :=
    Option.some.inj (hp.symm.trans hsplit)
  rw [hpayload] at hc
  simp only [Option.some.injEq, EngineRequest.handled, Handled.mk.injEq] at hsome
  rw [← hsome.2.2.2]
  exact runQuery_files hc

/-- The maps behind a valid query hold fitting entries again. -/
theorem EngineMaps.Within.nextMaps (hV : V.Within A H) (hr : r.WellFormed) (hu : r.Uses A H) :
    EngineMaps.Within (KvStore.nextMaps V r) A H := by
  have hkey : ∀ k v, r.query = .set k v → EntryFits k v := by
    intro k v hq
    have hvalid := hr.query
    rw [hq] at hvalid
    refine ⟨fun he => hvalid.nonempty (congrArg CString.bytes he), hvalid.key_le,
      HashTable.inRange_of_ascii hvalid.ascii hvalid.key_le, hvalid.value_lt⟩
  -- an entry of the maps was there before, or it is the one of the query
  have hentry : ∀ x k v, KvStore.nextMaps V r x k = some v → V x k = some v ∨
      (x = r.engine ∧ r.query = .set k v) := by
    intro x k v hk
    by_cases hx : x = r.engine
    · subst hx
      rw [nextMaps_self] at hk
      cases hq : r.query with
      | get j =>
        rw [hq] at hk
        exact .inl hk
      | set j u =>
        rw [hq, Query.call, next_set] at hk
        by_cases hj : j = k
        · subst hj
          rw [if_pos rfl] at hk
          cases hv : V r.engine j with
          | some v' =>
            rw [hv, Option.some_or] at hk
            exact .inl hk
          | none =>
            rw [hv, Option.none_or, Option.some.injEq] at hk
            exact .inr ⟨rfl, by rw [hk]⟩
        · rw [if_neg hj, Option.or_none] at hk
          exact .inl hk
    · rw [KvStore.nextMaps, Function.update_of_ne hx] at hk
      exact .inl hk
  refine ⟨?_, ?_, ?_⟩
  · intro x k v hk
    obtain hk | ⟨-, hq⟩ := hentry x k v hk
    · exact hV.fits x k v hk
    · exact hkey k v hq
  · intro k hk
    obtain ⟨v, hv⟩ := Option.isSome_iff_exists.mp hk
    obtain hk | ⟨hx, hq⟩ := hentry _ k v hv
    · exact hV.array k (by rw [hk]; rfl)
    · have huse := hu.array hx.symm
      rwa [hq] at huse
  · intro k hk
    obtain ⟨v, hv⟩ := Option.isSome_iff_exists.mp hk
    obtain hk | ⟨hx, hq⟩ := hentry _ k v hv
    · exact hV.hash k (by rw [hk]; rfl)
    · have huse := hu.hash hx.symm
      rwa [hq] at huse

/-- A query is answered from the map of its engine. -/
theorem Serves.hold (hs : Serves P cfg s r reply s') (h : s.toEngines.Hold V) (hV : V.Within A H)
    (hb : Budget A H) :
    reply = r.response (V r.engine) ∧ s'.toEngines.Hold (nextMaps V r) := by
  have hroom : s.array.total < kvsArraySize := (h.array.total_le hV.array).trans_lt hb.array
  obtain ⟨rfl, hkeeps, hother⟩ := hs.keeps (h.keeps hV r.engine) fun _ => hroom
  refine ⟨rfl, Store.hold_of_keeps fun x => ?_⟩
  by_cases hx : x = r.engine
  · subst hx
    rwa [nextMaps_self]
  · rw [nextMaps, Function.update_of_ne hx]
    exact hother x (V x) hx (h.keeps hV x)

/-- A `SAVE` calls `kvs_rdb_save`, answers with its outcome and changes the files only. -/
theorem AnswersSave.spec {seqId flags : ℕ} {payload : List UInt8} {io : SaveIO}
    (hs : AnswersSave P cfg s seqId flags payload io reply s') :
    ∃ c fs', kvsRdbSave cfg.rdb io s.toEngines s.files cfg.rdbFile = some (c, fs') ∧
      reply = buildTcpResponse Cmd.save.code seqId (if c < 0 then saveErrorText else savedText) ∧
      s' = { s with files := fs' } := by
  obtain ⟨hseq, hflags, hpay, w, rest, len, buffer, rfl, hle, hlen, n, hn⟩ := hs
  have hsome := hn n le_rfl
  simp only [kvsTcpProtocol_packet (Cmd.code_lt .save) hseq hflags hpay hle hlen,
    Cmd.ofCode_code] at hsome
  obtain ⟨p, -, hsome⟩ := Option.bind_eq_some_iff.mp hsome
  obtain ⟨⟨t, s₁⟩, hc, hsome⟩ := Option.bind_eq_some_iff.mp hsome
  have hrun : runSave w s cfg = some (t, s₁) := hc
  obtain ⟨⟨c, fs'⟩, hsave, hrun⟩ := Option.bind_eq_some_iff.mp hrun
  simp only [Option.some.injEq, Prod.mk.injEq] at hrun
  obtain ⟨rfl, rfl⟩ := hrun
  simp only [Option.some.injEq, Handled.mk.injEq] at hsome
  exact ⟨c, fs', hsave, hsome.2.2.1.symm, hsome.2.2.2.symm⟩

end Store

end KvStore
