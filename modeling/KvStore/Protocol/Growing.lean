import KvStore.Protocol.Model
import KvStore.Rbtree.Growing
import KvStore.Skip.Agree

/-! The result of a command stays when the loops of its engine may go on longer. -/
namespace KvStore
open Fuel

variable {S : Type*} [Comparisons S]

theorem runZadd_growing (P : Scores S) (w : Host) (s : Store S) (key value : Option CString) :
    Growing fun n => runZadd P n w s key value := by
  cases key with
  | none => exact .const _
  | some k =>
    cases value with
    | none => exact .const _
    | some v =>
      cases hi : v.strchr space with
      | none =>
        simp only [runZadd, hi]
        exact .const _
      | some i =>
        simp only [runZadd, hi]
        exact (s.skiptable.zadd_growing _ _ _ _ _).bind fun _ => .const _

omit [Comparisons S] in
theorem runZrem_growing (s : Store S) (key : Option CString) : Growing fun n => runZrem n s key := by
  cases key with
  | none => exact .const _
  | some k => exact (s.skiptable.zrem_growing k).bind fun _ => .const _

theorem runZrange_growing (P : Scores S) (s : Store S) (key value : Option CString) :
    Growing fun n => runZrange P n s key value := by
  cases key with
  | none => exact .const _
  | some k =>
    cases value with
    | none => exact .const _
    | some v =>
      cases hrange : P.sscanf v with
      | none =>
        simp only [runZrange, hrange]
        exact .const _
      | some r =>
        simp only [runZrange, hrange]
        exact (s.skiptable.zrange_growing _ _ _).bind fun _ => .const _

theorem runCommand_growing (P : Scores S) (cfg : ServerConfig) (w : Host) (s : Store S)
    (cmd : Option Cmd) (key value : Option CString) :
    Growing fun n => runCommand P n w s cfg cmd key value := by
  cases cmd with
  | none => exact .const _
  | some c =>
    cases c with
    | rset =>
      have hcmd := (s.rbtree.kvsRbtreeSet_growing w.node key value).bind
        (k := fun r _ => some (retText r.1 existText, { s with rbtree := r.2 })) fun _ => .const _
      exact hcmd
    | rget =>
      have hcmd := (s.rbtree.kvsRbtreeGet_growing key).bind
        (k := fun v _ => (getText v).bind fun result => some (result, s)) fun _ => .const _
      exact hcmd
    | zadd => exact runZadd_growing P w s key value
    | zrem => exact runZrem_growing s key
    | zrange => exact runZrange_growing P s key value
    | _ => exact .const _

end KvStore
