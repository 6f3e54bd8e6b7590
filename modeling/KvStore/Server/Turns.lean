import KvStore.Server.Proactor
import KvStore.Server.Pipeline
import Mathlib.Data.List.Perm.Basic

/-! When the connections of `proactor_start` do not disturb each other. One request at a time is in
the buffer, and one reply at a time is in the response. -/
namespace KvStore

section FilterMap

variable {α β : Type*} {l l' : List α} {i : ℕ} {a : α}

theorem filterMap_eraseIdx (f : α → Option β) (h : l[i]? = some a) :
    ((f a).toList ++ (l.eraseIdx i).filterMap f).Perm (l.filterMap f) := by
  obtain ⟨hi, rfl⟩ := List.getElem?_eq_some_iff.mp h
  have hperm := (List.getElem_cons_eraseIdx_perm hi).filterMap f
  rw [List.filterMap_cons] at hperm
  cases hf : f l[i] with
  | none =>
    rw [hf] at hperm
    exact hperm
  | some b =>
    rw [hf] at hperm
    exact hperm

theorem filterMap_set (f : α → Option β) (h : l[i]? = some a) (b : α) :
    ((f a).toList ++ (l.set i b).filterMap f).Perm ((f b).toList ++ l.filterMap f) := by
  have hset : (l.set i b)[i]? = some b :=
    List.getElem?_set_self (List.getElem?_eq_some_iff.mp h).1
  have hfront := filterMap_eraseIdx f hset
  rw [List.eraseIdx_set_eq] at hfront
  have hswap : ((f a).toList ++ ((f b).toList ++ (l.eraseIdx i).filterMap f)).Perm
      ((f b).toList ++ ((f a).toList ++ (l.eraseIdx i).filterMap f)) := by
    rw [← List.append_assoc, ← List.append_assoc]
    exact List.perm_append_comm.append_right _
  have hback := filterMap_eraseIdx f h
  exact (hfront.symm.append_left _).trans (hswap.trans (hback.append_left _))

theorem filterMap_singleton (f : α → Option β) (a : α) : [a].filterMap f = (f a).toList := by
  rw [List.filterMap_cons]
  cases f a <;> rfl

/-- With at most one entry there is only one order. -/
theorem eq_of_perm {l l' : List α} (h : l.Perm l') (hle : l'.length ≤ 1) : l = l' := by
  cases l' with
  | nil => exact h.eq_nil
  | cons a l' =>
    obtain rfl : l' = [] := List.length_eq_zero_iff.mp (Nat.le_zero.mp (Nat.le_of_succ_le_succ hle))
    exact h.eq_singleton

end FilterMap

theorem Completion.read_request (fd : ℤ) {bytes : List UInt8} (h : bytes ≠ []) :
    (Completion.read fd bytes).request = some (fd, bytes) := by
  rw [Completion.request, if_neg h]

namespace Ring

variable {r : Ring} {i : ℕ} {op op' : Operation} {c : Completion}

theorem mem_waiting {x : ℤ × List UInt8} (h : r.flying[i]? = some op) (hx : op.request = some x) :
    x ∈ r.waiting := by
  apply List.mem_append_left
  apply List.mem_filterMap.mpr
  exact ⟨op, List.mem_append_right _ (List.mem_of_getElem? h), hx⟩

theorem mem_unsent {x : Outgoing} (h : r.flying[i]? = some op) (hx : op.reply = some x) :
    x ∈ r.unsent :=
  List.mem_filterMap.mpr ⟨op, List.mem_append_right _ (List.mem_of_getElem? h), hx⟩

theorem submit_waiting (h : r.batch = some []) : r.submit.waiting.Perm r.waiting := by
  have hperm : (r.flying ++ r.prepared).Perm (r.prepared ++ r.flying) := List.perm_append_comm
  rw [waiting, waiting, h]
  exact (hperm.filterMap _).append_right _

theorem submit_unsent (r : Ring) : r.submit.unsent.Perm r.unsent := by
  have hperm : (r.flying ++ r.prepared).Perm (r.prepared ++ r.flying) := List.perm_append_comm
  exact hperm.filterMap _

theorem reap_waiting (h : r.batch = none) : r.reap.waiting = r.waiting := by
  rw [waiting, waiting, h]
  simp only [reap, Option.getD_some, Option.getD_none, List.take_append_drop, List.nil_append]

/-- The head of the batch is taken off. -/
theorem next_waiting {batch : List Completion} (h : r.batch = some (c :: batch)) :
    (c.request.toList ++ (r.next batch).waiting).Perm r.waiting := by
  rw [List.perm_iff_count]
  intro x
  simp only [waiting, next, h, Option.getD_some, List.cons_append, List.filterMap_append,
    List.count_append]
  cases hc : c.request with
  | none =>
    rw [List.filterMap_cons_none hc]
    simp only [List.filterMap_append, List.count_append, Option.toList_none, List.count_nil]
    omega
  | some y =>
    rw [List.filterMap_cons_some hc]
    simp only [List.filterMap_append, List.count_append, Option.toList_some, List.count_cons,
      List.count_nil]
    omega

theorem prepare_waiting (r : Ring) (ops : List Operation) :
    (r.prepare ops).waiting.Perm (ops.filterMap Operation.request ++ r.waiting) := by
  rw [List.perm_iff_count]
  intro x
  simp only [waiting, prepare, List.filterMap_append, List.count_append]
  omega

theorem prepare_unsent (r : Ring) (ops : List Operation) :
    (r.prepare ops).unsent.Perm (ops.filterMap Operation.reply ++ r.unsent) := by
  rw [List.perm_iff_count]
  intro x
  simp only [unsent, prepare, List.filterMap_append, List.count_append]
  omega

theorem complete_waiting (h : r.flying[i]? = some op) (c : Completion) :
    (op.request.toList ++ (r.complete i c).waiting).Perm (c.request.toList ++ r.waiting) := by
  rw [List.perm_iff_count]
  intro x
  have hx := (filterMap_eraseIdx Operation.request h).count_eq x
  simp only [waiting, complete, List.filterMap_append, filterMap_singleton,
    List.count_append] at hx ⊢
  omega

theorem complete_unsent (h : r.flying[i]? = some op) (c : Completion) :
    (op.reply.toList ++ (r.complete i c).unsent).Perm r.unsent := by
  rw [List.perm_iff_count]
  intro x
  have hx := (filterMap_eraseIdx Operation.reply h).count_eq x
  simp only [unsent, complete, List.filterMap_append, List.count_append] at hx ⊢
  omega

theorem replace_waiting (h : r.flying[i]? = some op) (op' : Operation) :
    (op.request.toList ++ (r.replace i op').waiting).Perm (op'.request.toList ++ r.waiting) := by
  rw [List.perm_iff_count]
  intro x
  have hx := (filterMap_set Operation.request h op').count_eq x
  simp only [waiting, replace, List.filterMap_append, List.count_append] at hx ⊢
  omega

theorem replace_unsent (h : r.flying[i]? = some op) (op' : Operation) :
    (op.reply.toList ++ (r.replace i op').unsent).Perm (op'.reply.toList ++ r.unsent) := by
  rw [List.perm_iff_count]
  intro x
  have hx := (filterMap_set Operation.reply h op').count_eq x
  simp only [unsent, replace, List.filterMap_append, List.count_append] at hx ⊢
  omega

end Ring

def Handling.fed {S : Type*} (c : Handling S) : ℤ × List UInt8 := (c.fd, c.request)
def Handling.answer {S : Type*} (c : Handling S) : ℤ × List UInt8 := (c.fd, c.response)
def Outgoing.answer (r : Outgoing) : ℤ × List UInt8 := (r.fd, r.bytes)

/-- What belongs to one connection. -/
def onFd (fd : ℤ) (l : List (ℤ × List UInt8)) : List (List UInt8) :=
  (l.filter (·.1 = fd)).map Prod.snd

theorem onFd_append (fd : ℤ) (l l' : List (ℤ × List UInt8)) :
    onFd fd (l ++ l') = onFd fd l ++ onFd fd l' := by
  rw [onFd, List.filter_append, List.map_append, onFd, onFd]

section Turns

variable {S : Type*} [Comparisons S] (P : Scores S) (cfg : ServerConfig)

/-- The response is that of the handler to the request by itself. -/
def Handling.Own (c : Handling S) : Prop :=
  (kvsTcpProtocol P cfg c.sys.1 c.sys.2 c.store (c.request ++ [0]) c.request.length).map
    Handled.response = some c.response

/-- Every request received on a connection was handled once with its bytes, or still waits; every
reply to them was the one of the handler to these bytes; and every reply went into one `send` on
its own connection, which sent just this reply if it did not fail, or is still to do so. -/
structure Proactor.Sound (t : Proactor S) : Prop where
  requests : ∀ fd, onFd fd t.received = onFd fd (t.handled.map Handling.fed) ++ onFd fd t.waiting
  own : ∀ c ∈ t.handled, c.Own P cfg
  replies : ∀ fd, onFd fd (t.handled.map Handling.answer) =
    onFd fd (t.transmitted.map fun x => x.reply.answer) ++ onFd fd (t.unsent.map Outgoing.answer)
  sent : ∀ x ∈ t.transmitted, ∀ bytes ∈ x.bytes, bytes = x.reply.bytes

/-- No `recv` fills the buffer while a request waits in it, and each brings one whole request; no
request is handled while a reply is still to be read from the response, and each `send` that does
not fail takes all it was asked for. -/
def Proactor.InTurn (t : Proactor S) : Event → Prop
  | .fill _ bytes => t.waiting = [] ∧ ∃ p : RequestPacket, bytes = p.bytes
  | .next _ _ =>
    ∀ fd bytes batch, t.batch = some (.read fd bytes :: batch) → bytes ≠ [] → t.unsent = []
  | .drain i k => ∀ r, t.flying[i]? = some (.send r) → k = r.len
  | _ => True

/-- What holds of the buffers while the connections take turns. -/
structure Proactor.Turns (t : Proactor S) : Prop where
  received : t.received = t.handled.map Handling.fed ++ t.waiting
  waiting_le : t.waiting.length ≤ 1
  held : ∀ x ∈ t.waiting, ∃ p : RequestPacket, x.2 = p.bytes ∧ p.bytes <+: t.buffer
  own : ∀ c ∈ t.handled, c.Own P cfg
  replies : t.handled.map Handling.answer =
    t.transmitted.map (fun x => x.reply.answer) ++ t.unsent.map Outgoing.answer
  unsent_le : t.unsent.length ≤ 1
  ready : ∀ r ∈ t.unsent, r.len = r.bytes.length ∧ r.bytes <+: t.response
  sent : ∀ x ∈ t.transmitted, ∀ bytes ∈ x.bytes, bytes = x.reply.bytes

variable {P cfg} {t t' : Proactor S}

theorem Proactor.Turns.sound (h : t.Turns P cfg) : t.Sound P cfg where
  requests := by
    intro fd
    rw [h.received, onFd_append]
  own := h.own
  replies := by
    intro fd
    rw [h.replies, onFd_append]
  sent := h.sent

theorem Proactor.start_turns (s : Store S) : (Proactor.start s).Turns P cfg where
  received := rfl
  waiting_le := Nat.zero_le 1
  held := by
    intro x hx
    cases hx
  own := by
    intro c hc
    cases hc
  replies := rfl
  unsent_le := Nat.zero_le 1
  ready := by
    intro r hr
    cases hr
  sent := by
    intro x hx
    cases hx

/-- The rings may move on, as long as the same requests wait and the same replies are unsent. -/
theorem Proactor.Turns.move (h : t.Turns P cfg) {r : Ring} (hwaiting : r.waiting.Perm t.waiting)
    (hunsent : r.unsent.Perm t.unsent) : ({ t with toRing := r } : Proactor S).Turns P cfg := by
  have hw : r.waiting = t.waiting := eq_of_perm hwaiting h.waiting_le
  have hu : r.unsent = t.unsent := eq_of_perm hunsent h.unsent_le
  constructor
  · exact h.received.trans (by rw [hw])
  · exact (congrArg List.length hw).trans_le h.waiting_le
  · rw [hw]
    exact h.held
  · exact h.own
  · exact h.replies.trans (by rw [hu])
  · exact (congrArg List.length hu).trans_le h.unsent_le
  · rw [hu]
    exact h.ready
  · exact h.sent

/-- A payload needs a byte behind it for its NUL. -/
theorem RequestPacket.behind_ne {p : RequestPacket} {rest : List UInt8} {n : ℕ} {w : Host}
    {s : Store S} {h : Handled S}
    (hr : kvsTcpProtocol P cfg n w s (p.bytes ++ rest) p.bytes.length = some h)
    (hne : p.payload ≠ []) : rest ≠ [] := by
  rintro rfl
  have hlen : p.bytes.length ≤ (p.bytes ++ []).length := by rw [List.append_nil]
  have hnone : splitPayload (p.bytes ++ []) p.payload.length = none := by
    rw [splitPayload, if_neg (fun h0 => hne (List.length_eq_zero_iff.mp h0)), if_pos]
    rw [List.append_nil, p.length_bytes]
  have hcall : kvsTcpProtocol P cfg n w s (p.bytes ++ []) p.bytes.length =
      (splitPayload (p.bytes ++ []) p.payload.length).bind _ :=
    kvsTcpProtocol_packet p.cmdType_lt p.seqId_lt p.flags_lt p.payload_le le_rfl hlen
  rw [hcall, hnone, Option.bind_none] at hr
  cases hr

/-- Whatever stands behind a packet, the response is the one to the packet by itself. -/
theorem RequestPacket.own_response {p : RequestPacket} {rest : List UInt8} {n : ℕ} {w : Host}
    {s : Store S} {h : Handled S}
    (hr : kvsTcpProtocol P cfg n w s (p.bytes ++ rest) p.bytes.length = some h) :
    (kvsTcpProtocol P cfg n w s (p.bytes ++ [0]) p.bytes.length).map Handled.response =
      some h.response ∧ h.ret = h.response.length := by
  obtain ⟨front, -, hcall⟩ := p.call P cfg (RequestPacket.behind_ne hr)
  obtain ⟨front₀, -, halone⟩ := p.call P cfg (fun _ => List.cons_ne_nil 0 [])
  rw [hcall (n, w) s] at hr
  obtain ⟨c, hc, rfl⟩ := Option.map_eq_some_iff.mp hr
  rw [halone (n, w) s, hc]
  exact ⟨rfl, rfl⟩

/-- A whole request is received into a buffer where none waits. -/
theorem Proactor.Turns.fill (h : t.Turns P cfg) {i : ℕ} {fd : ℤ}
    (hop : t.flying[i]? = some (.recv fd)) (hnone : t.waiting = []) (p : RequestPacket) :
    ({ t with
      toRing := t.replace i (.filled fd p.bytes)
      buffer := p.bytes ++ t.buffer.drop p.bytes.length
      received := t.received ++ [(fd, p.bytes)] } : Proactor S).Turns P cfg := by
  have hw : (t.replace i (.filled fd p.bytes)).waiting = [(fd, p.bytes)] := by
    have hperm := Ring.replace_waiting hop (.filled fd p.bytes)
    rw [hnone] at hperm
    exact hperm.eq_singleton
  have hu : (t.replace i (.filled fd p.bytes)).unsent = t.unsent :=
    eq_of_perm (Ring.replace_unsent hop (.filled fd p.bytes)) h.unsent_le
  have hreceived := h.received
  rw [hnone, List.append_nil] at hreceived
  constructor
  · exact congrArg₂ (· ++ ·) hreceived hw.symm
  · exact (congrArg List.length hw).le
  · intro x hx
    obtain rfl := List.mem_singleton.mp (hw ▸ hx)
    exact ⟨p, rfl, List.prefix_append _ _⟩
  · exact h.own
  · exact h.replies.trans (by rw [hu])
  · exact (congrArg List.length hu).trans_le h.unsent_le
  · rw [hu]
    exact h.ready
  · exact h.sent

/-- The reply that is read, or fails to be, is settled. -/
theorem Proactor.Turns.settle (h : t.Turns P cfg) {r : Ring} {x : Transmission}
    (hwaiting : r.waiting.Perm t.waiting) (hunsent : (x.reply :: r.unsent).Perm t.unsent)
    (hsent : ∀ bytes ∈ x.bytes, bytes = x.reply.bytes) :
    ({ t with
      toRing := r
      transmitted := t.transmitted ++ [x] } : Proactor S).Turns P cfg := by
  have hw : r.waiting = t.waiting := eq_of_perm hwaiting h.waiting_le
  have hu : x.reply :: r.unsent = t.unsent := eq_of_perm hunsent h.unsent_le
  have hle := h.unsent_le
  have hready := h.ready
  rw [← hu] at hle hready
  constructor
  · exact h.received.trans (by rw [hw])
  · exact (congrArg List.length hw).trans_le h.waiting_le
  · rw [hw]
    exact h.held
  · exact h.own
  · rw [h.replies, ← hu]
    simp only [List.map_append, List.map_cons, List.map_nil, List.append_assoc, List.cons_append,
      List.nil_append]
  · exact (Nat.le_succ _).trans hle
  · intro y hy
    exact hready y (List.mem_cons_of_mem _ hy)
  · intro y hy
    obtain hy | hy := List.mem_append.mp hy
    · exact h.sent y hy
    · obtain rfl := List.mem_singleton.mp hy
      exact hsent

/-- The request that waits is handled while every reply is sent. -/
theorem Proactor.Turns.answer (h : t.Turns P cfg) {c : Handling S} {r : Ring} {reply : Outgoing}
    {response : List UInt8} (hw : t.waiting = [c.fed]) (hu : t.unsent = []) (hown : c.Own P cfg)
    (hwaiting : r.waiting = []) (hunsent : r.unsent = [reply]) (hanswer : reply.answer = c.answer)
    (hready : reply.len = reply.bytes.length ∧ reply.bytes <+: response) (buffer : List UInt8)
    (store : Store S) :
    (⟨r, buffer, response, store, t.received, t.handled ++ [c], t.transmitted⟩ :
      Proactor S).Turns P cfg := by
  have hreplies := h.replies
  rw [hu, List.map_nil, List.append_nil] at hreplies
  constructor
  · dsimp only
    rw [hwaiting, List.append_nil, List.map_append, h.received, hw]
    rfl
  · exact (congrArg List.length hwaiting).trans_le (Nat.zero_le 1)
  · dsimp only
    rw [hwaiting]
    intro x hx
    cases hx
  · intro x hx
    obtain hx | hx := List.mem_append.mp hx
    · exact h.own x hx
    · obtain rfl := List.mem_singleton.mp hx
      exact hown
  · dsimp only
    rw [hunsent, List.map_append, hreplies, List.map_singleton, List.map_singleton, hanswer]
  · exact (congrArg List.length hunsent).le
  · dsimp only
    rw [hunsent]
    intro x hx
    obtain rfl := List.mem_singleton.mp hx
    exact hready
  · exact h.sent

/-- The request of a completion goes to the handler while every reply is sent. -/
theorem Proactor.Turns.handle (h : t.Turns P cfg) {fd : ℤ} {bytes : List UInt8}
    {batch : List Completion} (hbatch : t.batch = some (.read fd bytes :: batch))
    (hne : bytes ≠ []) (hnone : t.unsent = []) {n : ℕ} {w : Host}
    (hr : Proactor.entry P cfg n w { t with toRing := t.next batch } (.read fd bytes) = some t') :
    t'.Turns P cfg := by
  have hw : (fd, bytes) :: (t.next batch).waiting = t.waiting := by
    have hperm := Ring.next_waiting hbatch
    rw [Completion.read_request fd hne] at hperm
    exact eq_of_perm hperm h.waiting_le
  have hle := h.waiting_le
  rw [← hw, List.length_cons] at hle
  have hnil : (t.next batch).waiting = [] :=
    List.length_eq_zero_iff.mp (Nat.le_zero.mp (Nat.le_of_succ_le_succ hle))
  rw [hnil] at hw
  obtain ⟨p, rfl, rest, hrest⟩ := h.held (fd, bytes) (hw ▸ List.mem_singleton_self _)
  have htake : t.buffer.take p.bytes.length = p.bytes := by
    rw [← hrest]
    exact List.take_left' rfl
  rw [Proactor.entry, if_neg hne] at hr
  obtain ⟨c, hc, hr⟩ := Option.bind_eq_some_iff.mp hr
  dsimp only at hc hr
  rw [← hrest] at hc
  rw [htake] at hr
  obtain ⟨hown, hret⟩ := RequestPacket.own_response hc
  by_cases hlong : proactorBufferLength < c.response.length
  · rw [if_pos hlong] at hr
    cases hr
  rw [if_neg hlong] at hr
  rw [← Option.some.inj hr]
  have hlen : (c.ret % 2 ^ 32).toNat = c.response.length := by
    rw [proactorBufferLength] at hlong
    omega
  rw [hlen]
  apply h.answer (c := ⟨fd, p.bytes, (n, w), t.store, c.response⟩) hw.symm hnone hown
  · have hperm := (t.next batch).prepare_waiting [.send ⟨fd, c.response.length, c.response⟩]
    rw [hnil] at hperm
    exact hperm.eq_nil
  · have hperm := (t.next batch).prepare_unsent [.send ⟨fd, c.response.length, c.response⟩]
    rw [show (t.next batch).unsent = [] from hnone] at hperm
    exact hperm.eq_singleton
  · rfl
  · exact ⟨rfl, List.prefix_append _ _⟩

/-- What the loop prepares for a completion that brings no request. -/
theorem Proactor.Turns.prepare (h : t.Turns P cfg) {c : Completion} {batch : List Completion}
    (hbatch : t.batch = some (c :: batch)) (hc : c.request = none) {ops : List Operation}
    (hrequest : ops.filterMap Operation.request = []) (hreply : ops.filterMap Operation.reply = []) :
    ({ t with toRing := (t.next batch).prepare ops } : Proactor S).Turns P cfg := by
  apply h.move
  · have hnext := Ring.next_waiting hbatch
    have hprepare := (t.next batch).prepare_waiting ops
    rw [hc] at hnext
    rw [hrequest] at hprepare
    exact hprepare.trans hnext
  · have hprepare := (t.next batch).prepare_unsent ops
    rw [hreply] at hprepare
    exact hprepare

/-- The body of the loop. -/
theorem Proactor.Turns.entry (h : t.Turns P cfg) {c : Completion} {batch : List Completion}
    (hbatch : t.batch = some (c :: batch))
    (hturn : ∀ fd bytes, c = .read fd bytes → bytes ≠ [] → t.unsent = []) {n : ℕ} {w : Host}
    (hr : Proactor.entry P cfg n w { t with toRing := t.next batch } c = some t') :
    t'.Turns P cfg := by
  cases c with
  | accept connfd =>
    cases hr
    exact h.prepare hbatch rfl rfl rfl
  | write fd =>
    cases hr
    exact h.prepare hbatch rfl rfl rfl
  | readError fd =>
    cases hr
    exact h.move (Ring.next_waiting hbatch) (List.Perm.refl _)
  | read fd bytes =>
    by_cases hne : bytes = []
    · rw [Proactor.entry, if_pos hne] at hr
      cases hr
      have hnext := Ring.next_waiting hbatch
      rw [show (Completion.read fd bytes).request = none from if_pos hne] at hnext
      exact h.move hnext (List.Perm.refl _)
    · exact h.handle hbatch hne (hturn fd bytes rfl hne) hr

/-- An operation that holds no request and no unsent reply is completed. -/
theorem Proactor.Turns.complete (h : t.Turns P cfg) {i : ℕ} {op : Operation} {c : Completion}
    (hop : t.flying[i]? = some op) (hrequest : op.request = c.request) (hreply : op.reply = none) :
    ({ t with toRing := t.complete i c } : Proactor S).Turns P cfg := by
  apply h.move
  · have hperm := Ring.complete_waiting hop c
    rw [hrequest] at hperm
    exact (List.perm_append_left_iff _).mp hperm
  · have hperm := Ring.complete_unsent hop c
    rw [hreply] at hperm
    exact hperm

/-- Every event keeps the turns, when it comes in turn. -/
theorem Proactor.Turns.step (h : t.Turns P cfg) {e : Event} (hturn : t.InTurn e)
    (hr : proactorStep P cfg t e = some t') : t'.Turns P cfg := by
  cases e with
  | submit =>
    simp only [proactorStep] at hr
    split at hr
    · rename_i hbatch
      cases hr
      exact h.move (Ring.submit_waiting hbatch) (Ring.submit_unsent _)
    · cases hr
  | reap =>
    simp only [proactorStep] at hr
    split at hr
    · rename_i hbatch hqueue
      cases hr
      exact h.move (List.Perm.of_eq (Ring.reap_waiting hbatch)) (List.Perm.refl _)
    · cases hr
  | next n w =>
    simp only [proactorStep] at hr
    split at hr
    · rename_i c batch hbatch
      apply h.entry hbatch _ hr
      intro fd bytes hc hne
      exact hturn fd bytes batch (hc ▸ hbatch) hne
    · cases hr
  | accepted i connfd =>
    simp only [proactorStep] at hr
    split at hr
    · rename_i hop
      cases hr
      exact h.complete hop rfl rfl
    · cases hr
  | fill i bytes =>
    obtain ⟨hnone, p, rfl⟩ := hturn
    simp only [proactorStep] at hr
    split at hr
    · rename_i fd hop
      split at hr
      · cases hr
      · cases hr
        exact h.fill hop hnone p
    · cases hr
  | received i =>
    simp only [proactorStep] at hr
    split at hr
    · rename_i fd bytes hop
      cases hr
      obtain ⟨p, rfl, -⟩ := h.held (fd, bytes) (Ring.mem_waiting hop rfl)
      exact h.complete hop (Completion.read_request fd p.bytes_ne).symm rfl
    · cases hr
  | closed i =>
    simp only [proactorStep] at hr
    split at hr
    · rename_i fd hop
      cases hr
      exact h.complete hop rfl rfl
    · cases hr
  | drain i k =>
    simp only [proactorStep] at hr
    split at hr
    · rename_i r hop
      split at hr
      · cases hr
      · cases hr
        obtain ⟨hlen, hprefix⟩ := h.ready r (Ring.mem_unsent hop rfl)
        have hread : t.response.take k = r.bytes := by
          rw [hturn r hop, hlen]
          exact (List.prefix_iff_eq_take.mp hprefix).symm
        refine h.settle (Ring.replace_waiting hop (.drained r.fd))
          (Ring.replace_unsent hop (.drained r.fd)) ?_
        intro bytes hbytes
        cases hbytes
        exact hread
    · cases hr
  | sent i =>
    simp only [proactorStep] at hr
    split at hr
    · rename_i fd hop
      cases hr
      exact h.complete hop rfl rfl
    · cases hr
  | failed i =>
    simp only [proactorStep] at hr
    split at hr
    · rename_i fd hop
      cases hr
      exact h.complete hop rfl rfl
    · rename_i r hop
      cases hr
      refine h.settle (Ring.complete_waiting hop (.write r.fd))
        (Ring.complete_unsent hop (.write r.fd)) ?_
      intro bytes hbytes
      cases hbytes
    · cases hr

end Turns

/-- `EXIST b`. -/
def existOther : RequestPacket := { existLetter with payload := [98], payload_le := by decide }

/-- Two connections; the second request is received while the reply to the first one is still to be
read, and is handled behind that. -/
def turnEvents : List Event :=
  [.submit, .accepted 0 5, .reap, .next 0 roomyHost, .submit, .accepted 0 6, .reap,
    .next 0 roomyHost, .submit, .fill 0 existLetter.bytes, .received 0, .reap, .next 0 roomyHost,
    .submit, .fill 1 existOther.bytes, .drain 2 32, .received 1, .sent 1, .reap, .next 0 roomyHost,
    .next 0 roomyHost, .submit, .drain 1 32, .sent 1, .reap, .next 0 roomyHost]

end KvStore
