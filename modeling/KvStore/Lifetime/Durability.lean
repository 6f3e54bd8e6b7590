import KvStore.Lifetime.Refines

/-! What outlives the program: a `SET` of the array or the hash table that was answered `OK` and then
saved is never lost, unless the checksum is on, as it is by default, when nothing outlives it. -/
namespace KvStore
open KeyValue Fuel Checkpoint

variable {S : Type*} [Comparisons S] [Zero S] {P : Scores S} {path : Option CString}
  {conf : List UInt8} {p₀ p : Process S} {A H : Finset CString}
  {log pre post : List (LifeEvent × Option (List UInt8))} {cfg : ServerConfig}
  {M M' : Memory EngineMaps}

/-- The configuration file is there, or a start that can write it finds none. -/
def Process.FirstConf (w : StartIO S) (path : Option CString) (conf : List UInt8) (fs : Files) :
    Prop :=
  fs rdbConfigFile = some conf ∨
    (fs rdbConfigFile = none ∧ w.configOpens = true ∧ conf = writtenConf path ∧ Returning path)

omit [Comparisons S] [Zero S] in
theorem Process.FirstConf.configures {w : StartIO S} {fs : Files}
    (h : Process.FirstConf w path conf fs)
    (hfile : (startConfig path conf).rdbFile ≠ rdbConfigFile) : ∃ fs',
      Configures w.configOpens path conf fs fs' ∧
      fs' (startConfig path conf).rdbFile = fs (startConfig path conf).rdbFile := by
  obtain hconf | ⟨hnone, hopen, rfl, hpath⟩ := h
  · exact ⟨fs, .there hconf, rfl⟩
  · rw [hopen]
    exact ⟨_, .written hnone hpath, Function.update_of_ne hfile ..⟩

/-- The first start of the program, without a snapshot. -/
def Process.Launched (path : Option CString) (conf : List UInt8) (p₀ : Process S) : Prop :=
  ∃ (w : StartIO S) (fs : Files), w.Grants ∧ Process.FirstConf w path conf fs ∧
    fs (startConfig path conf).rdbFile = none ∧ Returns (fun n => Process.start n w path fs) p₀

omit [Comparisons S] in
theorem Process.Launched.follows (h : p₀.Launched path conf)
    (hfile : (startConfig path conf).rdbFile ≠ rdbConfigFile) :
    p₀.Follows path conf A H ⟨.empty, .empty⟩ := by
  obtain ⟨w, fs, hw, hfirst, hnone, hret⟩ := h
  obtain ⟨fs', hconf, hsame⟩ := hfirst.configures hfile
  have hrestores : Restores (startConfig path conf).rdb (fs' (startConfig path conf).rdbFile)
      .empty := by
    rw [hsame, hnone]
    exact .empty fun lio => kvsRdbLoad_none
  obtain ⟨p₁, hret', hsettings, hfiles, hold⟩ := Process.start_returns hconf hw hrestores
  obtain rfl := hret.unique hret'
  refine ⟨hsettings, ?_, hold, .empty, .empty, ?_⟩
  · rw [hfiles]
    exact hconf.configured
  · rw [hfiles]
    exact hrestores

/-- The queries of a run use the keys of the budget. -/
def UsesKeys (A H : Finset CString) (log : List (LifeEvent × Option (List UInt8))) : Prop :=
  ∀ r reply, (.call r, reply) ∈ log → r.Uses A H

theorem Process.Follows.run {M : Memory EngineMaps} (h : p₀.Follows path conf A H M)
    (hb : Budget A H) (hfile : (startConfig path conf).rdbFile ≠ rdbConfigFile)
    (hrun : Runs (Lives P path) p₀ log p) (hu : UsesKeys A H log) :
    ∃ M', Runs (LifeSpec (startConfig path conf)) M log M' ∧ p.Follows path conf A H M' := by
  apply hrun.refines _ h
  intro ev r hmem s m s' hs hstep
  refine hs.step hb hfile (fun q hq => ?_) hstep
  subst hq
  exact hu q r hmem

section Enabled

/-- Memory for a start. -/
def plainStart (S : Type*) : StartIO S where
  configOpens := true
  tree := Rbtree.blank
  nil := 1
  slots := fun _ => some []
  nodes := fun _ => none
  header := 1
  load := roomyIO
  engines := fun i => ⟨⟨true, true⟩, ⟨some (i + 2), true, true⟩, ⟨true, true, true⟩⟩

omit [Comparisons S] [Zero S] in
theorem plainStart_grants : (plainStart S).Grants := by
  refine ⟨Nat.one_ne_zero, rfl, fun _ => rfl, fun _ => rfl, fun _ => rfl, (· + 2), ?_,
    fun i => ⟨rfl, ?_, ?_⟩⟩
  · exact fun i j h => Nat.add_right_cancel h
  · exact Nat.succ_ne_zero _
  · change i + 2 ≠ 1
    omega

/-- What can happen at any time: a well-formed request within the budget, a save, or a new start. -/
def Proper (A H : Finset CString) : LifeEvent → Prop
  | .call r => r.WellFormed ∧ r.Uses A H
  | .save (.request seqId flags payload _) =>
    seqId < 2 ^ 32 ∧ flags < 2 ^ 32 ∧ payload.length ≤ 1024
  | .save (.thread _) => True
  | .restart => True

theorem splitPayload_isSome (cmd seq flags : ℕ) (payload : List UInt8) :
    (splitPayload (packet cmd seq flags payload ++ [0]) payload.length).isSome := by
  by_cases hzero : payload.length = 0
  · rw [splitPayload, if_pos hzero]
    rfl
  · have hlen : tcpHeaderSize + payload.length < (packet cmd seq flags payload ++ [0]).length := by
      rw [List.length_append, length_packet]
      exact Nat.lt_succ_self _
    rw [splitPayload_eq (Nat.pos_of_ne_zero hzero) hlen]
    dsimp only
    split
    · rfl
    · rfl

omit [Zero S] in
/-- A `SAVE` is handled whenever the save comes back. -/
theorem AnswersSave.exists {s : Store S} {seqId flags : ℕ} {payload : List UInt8} {io : SaveIO}
    {c : ℤ} {fs' : Files} (hseq : seqId < 2 ^ 32) (hflags : flags < 2 ^ 32)
    (hpay : payload.length ≤ 1024)
    (hsave : kvsRdbSave cfg.rdb io s.toEngines s.files cfg.rdbFile = some (c, fs')) :
    ∃ reply s', AnswersSave P cfg s seqId flags payload io reply s' := by
  obtain ⟨p, hp⟩ := Option.isSome_iff_exists.mp
    (splitPayload_isSome Cmd.save.code seqId flags payload)
  have hrun : ∀ n, runCommand P n { roomyHost with save := io } s cfg (Cmd.ofCode Cmd.save.code)
      p.key p.value =
        some (if c < 0 then saveErrorText else savedText, { s with files := fs' }) := by
    intro n
    rw [Cmd.ofCode_code]
    simp only [runCommand, runSave, hsave, Option.bind_some]
  have hlen : (packet Cmd.save.code seqId flags payload).length ≤
      (packet Cmd.save.code seqId flags payload ++ [0]).length := by
    rw [List.length_append]
    exact Nat.le_add_right _ _
  refine ⟨buildTcpResponse Cmd.save.code seqId (if c < 0 then saveErrorText else savedText),
    { s with files := fs' }, hseq, hflags, hpay, { roomyHost with save := io }, [0],
    (packet Cmd.save.code seqId flags payload).length,
    p.afterCommand (Cmd.ofCode Cmd.save.code), rfl, le_rfl, hlen, .of_eq fun n => ?_⟩
  rw [kvsTcpProtocol_packet (Cmd.code_lt .save) hseq hflags hpay le_rfl hlen, hp,
    Option.bind_some, hrun, Option.bind_some]

/-- The program never gets stuck. -/
theorem Process.Follows.enabled {ev : LifeEvent} (h : p.Follows path conf A H M)
    (hb : Budget A H) (hev : Proper A H ev) : ∃ r p', Lives P path p ev r p' := by
  have hsave : ∀ io, ∃ c fs', kvsRdbSave (startConfig path conf).rdb io p.store.toEngines
      p.store.files (startConfig path conf).rdbFile = some (c, fs') := by
    intro io
    obtain ⟨c, fs', D', hc, -⟩ :=
      h.hold.save h.volatile hb io h.snapshot
    exact ⟨c, fs', hc⟩
  cases ev with
  | call r =>
    obtain ⟨hr, -⟩ := hev
    have hroom : p.store.array.total < kvsArraySize :=
      (h.hold.array.total_le h.volatile.array).trans_lt hb.array
    obtain ⟨s', hs, -⟩ := Store.Keeps.exists_serves P p.config (h.hold.keeps h.volatile r.engine)
      (h.hold.keeps h.volatile .tree) hr fun _ => hroom
    exact ⟨_, _, .query hs⟩
  | save x =>
    obtain ⟨c, fs', hc⟩ := hsave x.io
    cases x with
    | request seqId flags payload io =>
      obtain ⟨hseq, hflags, hpay⟩ := hev
      rw [← h.config] at hc
      obtain ⟨reply, s', hs⟩ := AnswersSave.exists (P := P) hseq hflags hpay hc
      exact ⟨_, _, .request hs⟩
    | thread io =>
      cases hen : p.settings.rdbEnabled with
      | false => exact ⟨_, p, .thread (by simp [Process.checkAutoSave, hen])⟩
      | true =>
        have hlock : p.store.array.lock = some { p.store.array with locked := true } := by
          simp [KvsArray.lock, h.hold.array.unlocked]
        refine ⟨_, { p with store := { p.store with
          array := KvsArray.unlock { p.store.array with locked := true }, files := fs' } }, .thread ?_⟩
        rw [Process.checkAutoSave, hen, hlock]
        simp only [Bool.not_true, Bool.false_eq_true, if_false, Option.bind_some]
        rw [kvsRdbSave_lock, h.settings]
        have hc' : kvsRdbSave (startSettings path conf).toRdbConfig io p.store.toEngines
          p.store.files (startSettings path conf).rdbFile = some (c, fs') := hc
        rw [hc', Option.bind_some]
  | restart =>
    have hw : (plainStart S).Grants := plainStart_grants
    obtain ⟨p', hret, -⟩ := Process.start_returns (.there h.configured) hw h.snapshot
    exact ⟨none, p', .restart hw hret⟩

/-- What happens next, in the program and in its specification. -/
theorem Process.Follows.next {ev : LifeEvent} (P : Scores S) (h : p.Follows path conf A H M)
    (hb : Budget A H) (hfile : (startConfig path conf).rdbFile ≠ rdbConfigFile)
    (hev : Proper A H ev) : ∃ r p' M', Lives P path p ev r p' ∧
      LifeSpec (startConfig path conf) M ev r M' ∧ p'.Follows path conf A H M' := by
  obtain ⟨r, p', hs⟩ := h.enabled (P := P) hb hev
  have hu : ∀ q, ev = .call q → q.Uses A H := by
    rintro q rfl
    exact hev.2
  obtain ⟨M', hM', h'⟩ := h.step hb hfile hu hs
  exact ⟨r, p', M', hs, hM', h'⟩

omit [Comparisons S] in
theorem exists_launched (path : Option CString) (conf : List UInt8)
    (hfile : (startConfig path conf).rdbFile ≠ rdbConfigFile) :
    ∃ p₀ : Process S, p₀.Launched path conf := by
  let fs : Files := Function.update (fun _ => none) rdbConfigFile (some conf)
  have hconf : fs rdbConfigFile = some conf := Function.update_self ..
  have hnone : fs (startConfig path conf).rdbFile = none := Function.update_of_ne hfile ..
  have hrestores : Restores (startConfig path conf).rdb (fs (startConfig path conf).rdbFile)
      .empty := by
    rw [hnone]
    exact .empty fun lio => kvsRdbLoad_none
  have hw : (plainStart S).Grants := plainStart_grants
  obtain ⟨p₀, hret, -⟩ := Process.start_returns (.there hconf) hw hrestores
  exact ⟨p₀, plainStart S, fs, hw, .inl hconf, hnone, hret⟩

end Enabled

section Saved

/-- Saving is on, and the checksum off. -/
def ServerConfig.Plain (cfg : ServerConfig) : Prop :=
  cfg.rdb.rdbEnabled = true ∧ cfg.rdb.rdbCrc64 = false

/-- The file opens, or its backup is another file. -/
def ServerConfig.Careful (cfg : ServerConfig) (io : SaveIO) : Prop :=
  io.opens = true ∨ ¬ Overwrites cfg.rdb io cfg.rdbFile

variable {V D D' : EngineMaps} {x : Engine} {k v : CString} {r : Option (List UInt8)}

/-- An entry of the array or the table stays while requests only add. -/
theorem nextMaps_kept (hk : V x k = some v) (q : EngineRequest) : nextMaps V q x k = some v := by
  by_cases hx : x = q.engine
  · subst hx
    rw [nextMaps_self]
    cases q.query with
    | get j => exact hk
    | set j u => rw [Query.call, next_set, hk, Option.some_or]
  · rw [nextMaps, Function.update_of_ne hx]
    exact hk

/-- A careful save carries an entry of the array or the table over to the snapshot, where it is
there already or the file opens. -/
theorem Written.kept {t : SaveTrigger} (hplain : cfg.Plain) (h : Written cfg t V D D' r)
    (hx : x ≠ .tree) (hV : V x k = some v)
    (hsafe : t.io.opens = true ∨ (cfg.Careful t.io ∧ D x k = some v)) : D' x k = some v := by
  obtain ⟨hen, hcrc⟩ := hplain
  obtain ⟨saved, h, -⟩ := h
  cases h with
  | off hoff => exact absurd (hen.symm.trans hoff) (by decide)
  | checked _ _ hon => exact absurd (hcrc.symm.trans hon) (by decide)
  | unopened _ hopen _ =>
    obtain ho | ⟨-, hD⟩ := hsafe
    · exact absurd (hopen.symm.trans ho) (by decide)
    · exact hD
  | emptied _ hopen hover =>
    obtain ho | ⟨hcareful, -⟩ := hsafe
    · exact absurd (hopen.symm.trans ho) (by decide)
    · obtain ho | hno := hcareful
      · exact absurd (hopen.symm.trans ho) (by decide)
      · exact absurd hover hno
  | plain _ _ _ hsnap =>
    cases x with
    | array => rwa [hsnap.array]
    | tree => exact absurd rfl hx
    | hash => rwa [hsnap.hash]

/-- Once saved, an entry of the array or the table stays in memory and in the snapshot. -/
theorem LifeSpec.saved_kept (hplain : cfg.Plain) (hrun : Runs (LifeSpec cfg) M log M')
    (hx : x ≠ .tree) (hV : M.volatile x k = some v) (hD : M.durable x k = some v)
    (hsafe : ∀ t r, (.save t, r) ∈ log → cfg.Careful t.io) :
    M'.volatile x k = some v ∧ M'.durable x k = some v := by
  apply Step.kept (Q := fun V : EngineMaps => V x k = some v) hrun hV hD
  · exact fun V q hk => nextMaps_kept hk q
  · exact fun t r hmem V D D' h hV hD => h.kept hplain hx hV (.inr ⟨hsafe t r hmem, hD⟩)

theorem response_text (q : EngineRequest) (m : CString → Option CString) :
    (q.response m).drop tcpHeaderSize = q.query.answer q.engine m :=
  List.drop_left' (TcpHeader.length_bytes _)

/-- An `OK` from the array or the table means that the value is there now. -/
theorem nextMaps_of_ok {q : EngineRequest} (hx : q.engine ≠ .tree) (hq : q.query = .set k v)
    (hok : q.query.answer q.engine (V q.engine) = okText) :
    nextMaps V q q.engine k = some v := by
  rw [hq, Query.answer] at hok
  have habsent : V q.engine k = none := by
    by_contra hsome
    rw [if_pos ⟨hx, Option.isSome_iff_ne_none.mpr hsome⟩] at hok
    exact absurd hok (by decide)
  rw [nextMaps_self, hq, Query.call, next_set, habsent, if_pos rfl, Option.none_or]

end Saved

section Results

variable {q g : EngineRequest} {k v : CString} {a b : List UInt8} {t : SaveTrigger}
  {r : Option (List UInt8)} {l₁ l₂ l₃ l₄ : List (LifeEvent × Option (List UInt8))}

/-- Along every run from a first start, through any number of ends and new starts, the replies are
those of maps in memory that are lost and a snapshot that is taken up again, and everything proper
can happen next. -/
theorem kvstore_refines_lifeSpec (P : Scores S) (hb : Budget A H)
    (hfile : (startConfig path conf).rdbFile ≠ rdbConfigFile) (hstart : p₀.Launched path conf)
    (hrun : Runs (Lives P path) p₀ log p) (hu : UsesKeys A H log) :
    ∃ M, Runs (LifeSpec (startConfig path conf)) ⟨.empty, .empty⟩ log M ∧
      p.store.toEngines.Hold M.volatile ∧
      ∀ ev, Proper A H ev → ∃ r p', Lives P path p ev r p' := by
  obtain ⟨M, hspec, hp⟩ := (hstart.follows hfile).run hb hfile hrun hu
  exact ⟨M, hspec, hp.hold, fun ev hev => hp.enabled hb hev⟩

/-- With the checksum off, a `SET` of the array or the hash table that was answered `OK` before a save
is never lost: every later `GET` gives its value, in this life of the program or another. -/
theorem kvstore_saved_set_stays (P : Scores S) (hb : Budget A H)
    (hfile : (startConfig path conf).rdbFile ≠ rdbConfigFile)
    (hplain : (startConfig path conf).Plain) (hstart : p₀.Launched path conf)
    (hrun : Runs (Lives P path) p₀
      (l₁ ++ (.call q, some a) :: (l₂ ++ (.save t, r) :: (l₃ ++ (.call g, some b) :: l₄))) p)
    (hu : UsesKeys A H
      (l₁ ++ (.call q, some a) :: (l₂ ++ (.save t, r) :: (l₃ ++ (.call g, some b) :: l₄))))
    (hx : q.engine ≠ .tree) (hq : q.query = .set k v) (hok : a.drop tcpHeaderSize = okText)
    (hlife : ∀ r, (.restart, r) ∉ l₂) (hopen : t.io.opens = true)
    (hsafe : ∀ t r, (.save t, r) ∈ l₃ → (startConfig path conf).Careful t.io)
    (hg : g.engine = q.engine) (hget : g.query = .get k) : b.drop tcpHeaderSize = v.bytes := by
  obtain ⟨M, hspec, -⟩ := (hstart.follows hfile).run hb hfile hrun hu
  obtain ⟨M₁, -, hspec⟩ := hspec.split
  cases hspec with
  | cons hset hspec =>
    cases hset
    rw [response_text] at hok
    obtain ⟨M₂, h₂, hspec⟩ := hspec.split
    have hV := Step.kept_volatile (Q := fun V : EngineMaps => V q.engine k = some v) h₂
      (nextMaps_of_ok hx hq hok) (fun V q hk => nextMaps_kept hk q) hlife
    cases hspec with
    | cons hsave hspec =>
      cases hsave with
      | save hw =>
        have hD := hw.kept hplain hx hV (.inl hopen)
        obtain ⟨M₃, h₃, hspec⟩ := hspec.split
        obtain ⟨hV₃, -⟩ := LifeSpec.saved_kept hplain h₃ hx hV hD hsafe
        cases hspec with
        | cons hlast _ =>
          cases hlast
          rw [response_text, hget, hg, Query.answer, hV₃]
          rfl

/-- With the checksum on, which is the default, a new start knows nothing of the lives before it. -/
theorem kvstore_checked_restart_forgets (P : Scores S) (hb : Budget A H)
    (hfile : (startConfig path conf).rdbFile ≠ rdbConfigFile)
    (hcrc : (startConfig path conf).rdb.rdbCrc64 = true) (hstart : p₀.Launched path conf)
    (hrun : Runs (Lives P path) p₀ (l₁ ++ (.restart, r) :: (l₂ ++ (.call g, some b) :: l₃)) p)
    (hu : UsesKeys A H (l₁ ++ (.restart, r) :: (l₂ ++ (.call g, some b) :: l₃)))
    (hlife : ∀ r, (.restart, r) ∉ l₂) :
    b.drop tcpHeaderSize =
      g.query.answer g.engine fun k => firstSet g.engine k (calls l₂) := by
  obtain ⟨M, hspec, -⟩ := (hstart.follows hfile).run hb hfile hrun hu
  obtain ⟨M₁, h₁, hspec⟩ := hspec.split
  have hempty : M₁.durable = .empty := by
    apply Step.kept_durable (Q := fun D : EngineMaps => D = .empty) h₁ rfl
    rintro t r - V D D' ⟨saved, h, -⟩ rfl
    cases h with
    | off => rfl
    | unopened => rfl
    | emptied => rfl
    | checked => rfl
    | plain _ _ hoff => exact absurd (hcrc.symm.trans hoff) (by decide)
  cases hspec with
  | cons hrestart hspec =>
    cases hrestart
    obtain ⟨M₂, h₂, hspec⟩ := hspec.split
    have hmaps := Step.volatile_eq h₂ hlife
    cases hspec with
    | cons hlast _ =>
      cases hlast
      rw [response_text, hmaps]
      dsimp only
      rw [hempty]
      congr 1
      funext k
      rw [foldl_nextMaps]
      exact Option.none_or

end Results

section Instances

/-- `SET` and `GET` of a letter, in the array. -/
def setLetterRequest : EngineRequest := ⟨.array, setLetter, 0, 0⟩
def getLetterRequest : EngineRequest := ⟨.array, getLetter, 1, 0⟩

theorem setLetterRequest_proper : Proper {setLetter.key} ∅ (.call setLetterRequest) :=
  ⟨⟨setLetter_valid, by decide, by decide⟩, fun _ => Finset.mem_singleton_self _, nofun⟩

theorem getLetterRequest_proper : Proper {setLetter.key} ∅ (.call getLetterRequest) :=
  ⟨⟨getLetter_valid, by decide, by decide⟩, fun _ => Finset.mem_singleton_self _, nofun⟩

theorem letterBudget : Budget {setLetter.key} ∅ := ⟨by decide, by decide⟩

/-- A configuration file that switches the checksum on or off. -/
def checksumConf (flag : Bool) : List UInt8 := entryLine rdbCrc64Key (yesNo flag) ++ [10]

theorem startSettings_checksum (flag : Bool) :
    startSettings none (checksumConf flag) = { defaultSettings with rdbCrc64 := flag } := by
  rw [startSettings, rdbConfigLoad, checksumConf, configEntries_flag (by decide) (by decide)]
  cases flag with
  | false => rfl
  | true => rfl

theorem startConfig_checksum_file (flag : Bool) :
    (startConfig none (checksumConf flag)).rdbFile ≠ rdbConfigFile := by
  rw [startConfig, startSettings_checksum]
  change defaultSettings.rdbFile ≠ rdbConfigFile
  decide

/-- What can happen next in a run of the letter. -/
theorem Process.Follows.letter {p : Process ℕ} {flag : Bool} {M : Memory EngineMaps}
    (h : p.Follows none (checksumConf flag) {setLetter.key} ∅ M) (ev : LifeEvent)
    (hev : Proper {setLetter.key} ∅ ev) : ∃ r p' M', Lives plainScores none p ev r p' ∧
      LifeSpec (startConfig none (checksumConf flag)) M ev r M' ∧
      p'.Follows none (checksumConf flag) {setLetter.key} ∅ M' :=
  h.next plainScores letterBudget (startConfig_checksum_file flag) hev

/-- Every query in such a run uses the letter. -/
theorem usesKeys_letter {log : List (LifeEvent × Option (List UInt8))}
    (h : ∀ q r, (.call q, r) ∈ log → q = setLetterRequest ∨ q = getLetterRequest) :
    UsesKeys {setLetter.key} ∅ log := by
  intro q r hmem
  obtain rfl | rfl := h q r hmem
  · exact setLetterRequest_proper.2
  · exact getLetterRequest_proper.2

/-- A life in which the letter is set and saved, and a new one in which it is asked for. -/
def letterLog (a b : List UInt8) (r r' : Option (List UInt8)) :
    List (LifeEvent × Option (List UInt8)) :=
  [(.call setLetterRequest, some a), (.save (.thread readyIO), r), (.restart, r'),
    (.call getLetterRequest, some b)]

theorem usesKeys_letterLog {a b : List UInt8} {r r' : Option (List UInt8)} :
    UsesKeys {setLetter.key} ∅ (letterLog a b r r') := by
  refine usesKeys_letter fun q t hmem => ?_
  simp only [letterLog, List.mem_cons, Prod.mk.injEq, List.not_mem_nil, or_false] at hmem
  obtain ⟨hq, -⟩ | ⟨hq, -⟩ | ⟨hq, -⟩ | ⟨hq, -⟩ := hmem
  · cases hq
    exact .inl rfl
  · cases hq
  · cases hq
  · cases hq
    exact .inr rfl

/-- The program goes through these lives, whether the checksum is on or off. -/
theorem exists_letterLog (flag : Bool) : ∃ (p₀ p : Process ℕ) (a b : List UInt8)
    (r r' : Option (List UInt8)), p₀.Launched none (checksumConf flag) ∧
      Runs (Lives plainScores none) p₀ (letterLog a b r r') p ∧ a.drop tcpHeaderSize = okText := by
  have hfile := startConfig_checksum_file flag
  obtain ⟨p₀, hstart⟩ := exists_launched (S := ℕ) none (checksumConf flag) hfile
  obtain ⟨a, p₁, M₁, h₁, hset, hp₁⟩ := (hstart.follows hfile).letter (.call setLetterRequest)
    setLetterRequest_proper
  obtain ⟨r, p₂, M₂, h₂, -, hp₂⟩ := hp₁.letter (.save (.thread readyIO)) trivial
  obtain ⟨r', p₃, M₃, h₃, -, hp₃⟩ := hp₂.letter .restart trivial
  obtain ⟨b, p₄, M₄, h₄, hget, -⟩ := hp₃.letter (.call getLetterRequest) getLetterRequest_proper
  cases hset
  cases hget
  have hok : ((setLetterRequest.response (EngineMaps.empty .array)).drop tcpHeaderSize) = okText := by
    rw [response_text]
    rfl
  exact ⟨p₀, p₄, _, _, r, r', hstart, .cons h₁ (.cons h₂ (.cons h₃ (.cons h₄ (.nil p₄)))), hok⟩

theorem kvstore_refines_lifeSpec_letter : ∃ (p₀ p : Process ℕ) (a b : List UInt8)
    (r r' : Option (List UInt8)) (M : Memory EngineMaps),
    p₀.Launched none (checksumConf false) ∧
      Runs (Lives plainScores none) p₀ (letterLog a b r r') p ∧
      Runs (LifeSpec (startConfig none (checksumConf false))) ⟨.empty, .empty⟩ (letterLog a b r r') M ∧
      p.store.toEngines.Hold M.volatile ∧
      ∀ ev, Proper {setLetter.key} ∅ ev → ∃ r p', Lives plainScores none p ev r p' := by
  obtain ⟨p₀, p, a, b, r, r', hstart, hrun, -⟩ := exists_letterLog false
  obtain ⟨M, hspec, hold, hnext⟩ := kvstore_refines_lifeSpec plainScores letterBudget
    (startConfig_checksum_file false) hstart hrun usesKeys_letterLog
  exact ⟨p₀, p, a, b, r, r', M, hstart, hrun, hspec, hold, hnext⟩

theorem kvstore_saved_set_stays_letter : ∃ (p₀ p : Process ℕ) (a b : List UInt8)
    (r r' : Option (List UInt8)), p₀.Launched none (checksumConf false) ∧
      Runs (Lives plainScores none) p₀ (letterLog a b r r') p ∧ b.drop tcpHeaderSize = [98] := by
  have hfile := startConfig_checksum_file false
  have hplain : (startConfig none (checksumConf false)).Plain := by
    rw [startConfig, startSettings_checksum]
    exact ⟨rfl, rfl⟩
  obtain ⟨p₀, p, a, b, r, r', hstart, hrun, hok⟩ := exists_letterLog false
  have hlog : letterLog a b r r' = [] ++ (.call setLetterRequest, some a) ::
      ([] ++ (.save (.thread readyIO), r) :: ([(.restart, r')] ++
        (.call getLetterRequest, some b) :: [])) := rfl
  refine ⟨p₀, p, a, b, r, r', hstart, hrun, ?_⟩
  have hu : UsesKeys {setLetter.key} ∅ (letterLog a b r r') := usesKeys_letterLog
  rw [hlog] at hrun hu
  exact kvstore_saved_set_stays plainScores letterBudget hfile hplain hstart hrun hu (by decide)
    rfl hok (by simp) rfl (by simp) rfl rfl

/-- The value that was set and saved is gone. -/
theorem kvstore_checked_restart_forgets_letter : ∃ (p₀ p : Process ℕ) (a b : List UInt8)
    (r r' : Option (List UInt8)), p₀.Launched none (checksumConf true) ∧
      Runs (Lives plainScores none) p₀ (letterLog a b r r') p ∧
      a.drop tcpHeaderSize = okText ∧ b.drop tcpHeaderSize = noExistText := by
  have hfile := startConfig_checksum_file true
  have hcrc : (startConfig none (checksumConf true)).rdb.rdbCrc64 = true := by
    rw [startConfig, startSettings_checksum]
  obtain ⟨p₀, p, a, b, r, r', hstart, hrun, hok⟩ := exists_letterLog true
  have hlog : letterLog a b r r' = [(.call setLetterRequest, some a),
      (.save (.thread readyIO), r)] ++ (.restart, r') ::
        ([] ++ (.call getLetterRequest, some b) :: []) := rfl
  refine ⟨p₀, p, a, b, r, r', hstart, hrun, hok, ?_⟩
  have hu : UsesKeys {setLetter.key} ∅ (letterLog a b r r') := usesKeys_letterLog
  rw [hlog] at hrun hu
  exact kvstore_checked_restart_forgets plainScores letterBudget hfile hcrc hstart hrun hu (by simp)

end Instances

end KvStore
