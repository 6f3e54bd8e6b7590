import KvStore.Lib.Checkpoint
import KvStore.Lifetime.Model
import KvStore.Network.Linear
import KvStore.Protocol.Mutex

/-! A request that leaves the mutex of the array held, and the clients of the server from then on. -/
namespace KvStore
open History

namespace Request

variable (r : Request)

def cmd : Option Cmd := Cmd.ofCode r.cmdType.toNat

/-- The request takes the mutex of the array. -/
def OnArray : Prop := ∃ c, r.cmd = some c ∧ c.onArray = true

/-- It comes back with the mutex held. -/
def Leaks : Prop := LeavesLocked r.cmd (RequestPacket.args r.data).1 (RequestPacket.args r.data).2

end Request

section Replays

variable {ι S : Type*} [Comparisons S] {P : Scores S} {cfg : ServerConfig}
  {W : Store S → ℕ × Host → Prop} {s s' : Store S} {r : Request} {t : List UInt8}
  {h : List (Served ι Request (List UInt8))} {c : Served ι Request (List UInt8)}

theorem Request.Leaks.onArray (h : r.Leaks) : r.OnArray := by
  obtain ⟨-, hc | hc | hc⟩ | ⟨-, hc⟩ := h
  · exact ⟨_, hc, rfl⟩
  · exact ⟨_, hc, rfl⟩
  · exact ⟨_, hc, rfl⟩
  · exact ⟨_, hc, rfl⟩

theorem Handles.of_locked (hr : Handles P cfg W s r t s') (hs : s.array.locked = true) :
    ¬ r.OnArray ∧ s'.array.locked = true := by
  obtain ⟨sys, -, hres⟩ := hr
  have hno : ¬ r.OnArray := by
    rintro ⟨c, hc, harray⟩
    have hcmd : Cmd.ofCode r.packet.cmdType = some c := hc
    rw [RequestPacket.result, hcmd, runCommand_waits hs harray] at hres
    cases hres
  refine ⟨hno, ?_⟩
  rw [runCommand_array (fun c hc => ?_) hres]
  · exact hs
  · cases ho : c.onArray with
    | false => rfl
    | true => exact absurd ⟨c, hc, ho⟩ hno

theorem Handles.of_leaks (hr : Handles P cfg W s r t s') (hl : r.Leaks) :
    s'.array.locked = true := by
  cases hs : s.array.locked with
  | true => exact absurd hl.onArray (hr.of_locked hs).1
  | false =>
    obtain ⟨sys, -, hres⟩ := hr
    have hrun : ∃ t₁ s₁, r.packet.result P cfg sys s = some (t₁, s₁) ∧ s₁.array.locked = true :=
      runCommand_locked hs hl
    obtain ⟨t₁, s₁, hres', hlocked⟩ := hrun
    cases hres.symm.trans hres'
    exact hlocked

/-- From a state with the mutex held, a history has no command on the array. -/
theorem replays_locked (hrun : Replays (Handles P cfg W) s h s') (hs : s.array.locked = true) :
    s'.array.locked = true ∧ ∀ c ∈ h, ¬ c.request.OnArray := by
  induction h generalizing s with
  | nil =>
    cases hrun
    exact ⟨hs, nofun⟩
  | cons c h ih =>
    obtain ⟨s₁, hc, hrun⟩ := hrun.first
    obtain ⟨hno, hs₁⟩ := hc.of_locked hs
    obtain ⟨hs', hall⟩ := ih hrun hs₁
    exact ⟨hs', List.forall_mem_cons.mpr ⟨hno, hall⟩⟩

theorem replays_unlocked (hrun : Replays (Handles P cfg W) s h s') (hs : s.array.locked = false)
    (hno : ∀ c ∈ h, ¬ c.request.Leaks) : s'.array.locked = false := by
  apply Runs.keeps_mem (Q := fun s : Store S => s.array.locked = false) hrun hs
  rintro r t hmem s s' hs ⟨sys, -, hres⟩
  obtain ⟨c, hc, he⟩ := List.mem_map.mp hmem
  cases he
  exact runCommand_unlocked hs (hno c hc) hres

/-- Behind a request that leaks there is no command on the array. -/
theorem replays_leaked {pre post : List (Served ι Request (List UInt8))}
    (hrun : Replays (Handles P cfg W) s (pre ++ c :: post) s') (hl : c.request.Leaks) :
    s'.array.locked = true ∧ ∀ d ∈ post, ¬ d.request.OnArray := by
  obtain ⟨s₁, -, s₂, hc, hpost⟩ := hrun.between
  exact replays_locked hpost (hc.of_leaks hl)

end Replays

section Network

variable {ι S : Type*} [DecidableEq ι] [Comparisons S] {P : Scores S} {cfg : ServerConfig}
  {W : Store S → ℕ × Host → Prop} {s₀ : Store S} {programs : ι → List Request}
  {σ σ' : Network ι S} {es es' : List (Network.Event ι)}

/-- As long as no client sends a request that leaks, the mutex is free between requests. Once one was
handled, whatever happens later, no command on the array is answered to any client, and the thread
that saves never comes back. -/
theorem Network.leak_silences_array (hs : s₀.array.locked = false)
    (hrun : Drives (Network.Steps P cfg W) (.start s₀ programs) es σ)
    (hlater : Drives (Network.Steps P cfg W) σ es' σ') :
    ∃ h, σ.Linear P cfg W s₀ programs h ∧
      ((∀ c ∈ h, ¬ c.request.Leaks) → σ.store.array.locked = false) ∧
      ((∃ c ∈ h, c.request.Leaks) →
        (∀ i j r, (programs i)[j]? = some r → r.OnArray → (callsOf i h).length ≤ j →
          (σ'.conns i).client.responses.length ≤ j) ∧
        ∀ settings io, settings.rdbEnabled = true →
          Process.checkAutoSave io ⟨settings, σ'.store⟩ = none) := by
  obtain ⟨h, -, hσ⟩ := (Explains.start s₀ programs).run hrun
  obtain ⟨h', ⟨more, rfl⟩, hσ'⟩ := hσ.run hlater
  refine ⟨h, hσ.linear, replays_unlocked hσ.replays hs, ?_⟩
  rintro ⟨c, hc, hl⟩
  obtain ⟨pre, post, rfl⟩ := List.append_of_mem hc
  have hrest : Replays (Handles P cfg W) s₀ (pre ++ c :: (post ++ more)) σ'.store := by
    have h := hσ'.replays
    rwa [List.append_assoc, List.cons_append] at h
  obtain ⟨hlocked, hno⟩ := replays_leaked hrest hl
  constructor
  · intro i j r hr harray hj
    by_contra hlong
    -- request `j` has a response, so that it was served, and not before the leak
    have hlen := (hσ'.linear.responses i).length_le
    obtain ⟨unserved, hprogram, -⟩ := hσ'.linear.order i
    have hcalls : callsOf i (pre ++ c :: post ++ more) =
        callsOf i (pre ++ c :: post) ++ callsOf i more := List.filter_append _ _
    rw [List.length_map, hcalls, List.length_append] at hlen
    rw [hcalls] at hprogram
    have hlt : j - (callsOf i (pre ++ c :: post)).length < (callsOf i more).length := by omega
    have hd := List.getElem_mem hlt
    have hserved : (callsOf i more)[j - (callsOf i (pre ++ c :: post)).length].request = r := by
      rw [← hprogram, List.map_append, List.append_assoc, List.getElem?_append_right (by simpa using hj),
        List.getElem?_append_left (by simpa using hlt)] at hr
      simpa [hlt] using hr
    have hmore := List.mem_of_mem_filter hd
    exact hno _ (List.mem_append_right _ hmore) (by rwa [hserved])
  · intro settings io hen
    simp [Process.checkAutoSave, hen, KvsArray.lock, hlocked]

end Network

/-- `GET` without a key. -/
def bareGet : Request := ⟨2, 0, [], Nat.zero_le _⟩

/-- One client asks for this, the other one whether `a` exists. -/
def leakPrograms : Fin 2 → List Request
  | 0 => [bareGet]
  | 1 => [existRequest]

theorem leakPrograms_served : ∃ es σ, Drives PlainSteps (.start freshStore leakPrograms) es σ ∧
    σ.store.array.locked = true ∧ (σ.conns 1).client.todo = [existRequest] := by
  have hcall : Handles plainScores ⟨checkedConfig, .empty⟩ (fun _ _ => True) freshStore bareGet
      noExistText { freshStore with array := { kvsArrayCreate with locked := true } } :=
    ⟨(0, roomyHost), trivial, rfl⟩
  obtain ⟨es, σ, hrun, hstore, hrests⟩ := Network.realizes leakPrograms
    (h := [⟨(0 : Fin 2), bareGet, noExistText⟩]) (.cons hcall (.nil _))
    (Fin.forall_fin_two.mpr ⟨List.prefix_rfl, by simp [callsOf]⟩)
  exact ⟨es, σ, hrun, by rw [hstore], by rw [(hrests 1).client]; rfl⟩

/-- The other client never gets an answer. -/
theorem Network.leak_silences_array_bare : ∃ σ : Network (Fin 2) ℕ,
    σ.store.array.locked = true ∧ ∀ es' σ', Drives PlainSteps σ es' σ' →
      (σ'.conns 1).client.responses = [] := by
  obtain ⟨es, σ, hrun, hlocked, htodo⟩ := leakPrograms_served
  refine ⟨σ, hlocked, fun es' σ' hlater => ?_⟩
  obtain ⟨h, hlinear, hfree, hsilent⟩ := Network.leak_silences_array rfl hrun hlater
  have hleak : ∃ c ∈ h, c.request.Leaks := by
    by_contra hno
    push Not at hno
    rw [hfree hno] at hlocked
    cases hlocked
  obtain ⟨unserved, hprogram, hsuffix⟩ := hlinear.order 1
  have hunserved := hsuffix.length_le
  have hlen := congrArg List.length hprogram
  rw [htodo] at hunserved
  simp only [List.length_append, List.length_map, leakPrograms, List.length_singleton] at hlen hunserved
  have hsilent := (hsilent hleak).1 1 0 existRequest rfl ⟨.exist, rfl, rfl⟩ (by omega)
  exact List.length_eq_zero_iff.mp (Nat.le_zero.mp hsilent)

end KvStore
