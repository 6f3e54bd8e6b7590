import KvStore.Skip.Relink

/-! What `kvs_skiptable_zadd` and `kvs_skiptable_zrem` make of the members of a skip list. -/
namespace KvStore
open Levels Member

variable {S : Type*}

namespace SkipList

variable {L L' : SkipList S} {ns pre post : List (Member S)} {c x z : Member S} {k : CString}

theorem addr_map {g : Member S → Member S} (hg : ∀ x, (g x).ptr = x.ptr) (o : Option (Member S)) :
    addr (o.map g) = addr o := by
  cases o with
  | none => rfl
  | some x => exact hg x

/-- Changing what nodes store leaves them linked as they are. -/
theorem Linked.map {l : List (Member S)} {g : Member S → Member S} (h : L.Linked (upTo height) l)
    (hptr : ∀ x, (g x).ptr = x.ptr) (hheight : ∀ x, (g x).height = x.height)
    (hL : ∀ x ∈ l, ∀ f, L.nodes x.ptr = some (x.node f) → L'.nodes x.ptr = some ((g x).node f)) :
    L'.Linked (upTo height) (l.map g) := by
  intro a y b hab
  obtain ⟨a', m, hl, ha, hm⟩ := List.map_eq_append_iff.mp hab
  obtain ⟨x, b', hm', hx, hb⟩ := List.map_eq_cons_iff.mp hm
  subst hl hm' ha hx hb
  obtain ⟨f, hf, hlen, hnext⟩ := h a' x b' rfl
  refine ⟨f, ?_, by rw [hlen, hheight], fun i hi hon => ?_⟩
  · rw [hptr]
    exact hL x (by simp) f hf
  · have hon' : upTo height x i = true := by simpa [upTo, hheight] using hon
    rw [hnext i (by rwa [← hheight]) hon', nextAt, nextAt, List.find?_map, addr_map hptr]
    congr 3
    funext z
    simp [upTo, hheight]

section Zero

variable [Zero S]

/-- The header, which is on all levels. -/
def hdr (L : SkipList S) : Member S := ⟨L.header, .empty, .empty, 0, skipMaxLevel⟩

/-- The heap of `L` holds the members `ns` in this order. -/
structure Repr (L : SkipList S) (ns : List (Member S)) : Prop where
  linked : L.Linked (upTo height) (L.hdr :: ns)
  nodup : ((L.hdr :: ns).map ptr).Nodup
  nonnull : ∀ x ∈ L.hdr :: ns, x.ptr ≠ null
  heights : ∀ x ∈ ns, x.height ≤ L.level
  level_le : L.level ≤ skipMaxLevel
  length_eq : L.length = ns.length

/-- Where a descent from the header ends, and what it has recorded. -/
theorem Repr.descend {less : Member S → Prop} {test : SkipNode S → Bool} (h : L.Repr ns)
    (htest : ∀ x f, test (x.node f) = true ↔ less x) :
    ∃ (pre : List (Member S)) (u : Member S) (post : List (Member S)) (update : ℕ → Option Ptr),
      ns = pre ++ post ∧
      Fuel.Returns (fun n => L.descend test n L.level L.header fun _ => none) (u.ptr, update) ∧
      L.read u.ptr 0 = some (addr post.head?) ∧ Passed less height pre ∧
      Held less height post ∧ Recorded update L.level (L.hdr :: pre) := by
  have hd : Descent less L.hdr L.level L.level [] L.hdr ns fun _ => none :=
    ⟨⟨[], rfl⟩, h.level_le, .nil, fun j hj hl => by omega, fun j hj hl => by omega⟩
  obtain ⟨pre, u, post, update, hp, hret, ⟨q, hq⟩, hpass, hblock, hrec⟩ :=
    hd.descend h.linked (fun x hx => h.nonnull x (by simpa using .inr hx)) htest
  rw [List.nil_append] at hp
  refine ⟨pre, u, post, update, hp, hret, ?_, hpass, .of_blocked (fun x hx => ?_) hblock, hrec⟩
  · have hread := h.linked.read (x := u) (a := q) (b := post) (i := 0) (by
      rw [hp, ← List.cons_append, hq]
      simp) (Nat.zero_le _) (by simp)
    rw [hread]
    cases post with
    | nil => rfl
    | cons y post => rw [nextAt_cons_on (by simp)]; rfl
  · exact h.heights x (by simp [hp, hx])

/-- No node is left on a level above the one the loop stops at. -/
theorem lowerLevel_eq (hL : L.Linked (upTo height) (L.hdr :: ns))
    (hnull : ∀ x ∈ ns, x.ptr ≠ null) {level : ℕ} (hlevel : level ≤ skipMaxLevel)
    (hns : ∀ x ∈ ns, x.height ≤ level) :
    ∃ level', L.lowerLevel level = some level' ∧ level' ≤ level ∧
      ∀ x ∈ ns, x.height ≤ level' := by
  induction level with
  | zero => exact ⟨0, rfl, le_rfl, hns⟩
  | succ level ih =>
    have hread := hL.read (x := L.hdr) (a := []) (b := ns) (i := level + 1) rfl hlevel
      (by rw [upTo_eq_true]; exact hlevel)
    have hheader : L.hdr.ptr = L.header := rfl
    rw [hheader] at hread
    cases hn : nextAt (upTo height) (level + 1) ns with
    | none =>
      have hoff := nextAt_eq_none.mp hn
      obtain ⟨level', hl, hle, hns'⟩ := ih (by omega) fun x hx => by
        have hxl := hoff x hx
        rw [upTo_eq_false] at hxl
        omega
      exact ⟨level', by simp [lowerLevel, hread, hn, hl], by omega, hns'⟩
    | some y =>
      have hy := hnull y (nextAt_mem hn)
      exact ⟨level + 1, by simp [lowerLevel, hread, hn, hy], le_rfl, hns⟩

/-- The end of `kvs_skiptable_zrem` at the node `c` where the descent stopped. -/
theorem Repr.zremFound {update : ℕ → Option Ptr} (h : L.Repr (pre ++ c :: post))
    (hrec : Recorded update L.level (L.hdr :: pre)) :
    ∃ L', KvStore.zremFound L update c.ptr = some (0, L') ∧ L'.Repr (pre ++ post) ∧
      L'.header = L.header ∧ L'.nodes c.ptr = none := by
  have hd : ((L.hdr :: pre ++ c :: post).map ptr).Nodup := h.nodup
  have hc : c.height ≤ L.level := h.heights c (by simp)
  have hcn : c.ptr ≠ null := h.nonnull c (by simp)
  have hstart : L.Linked (vis c.ptr fun k => decide (0 ≤ k ∧ k ≤ c.height))
      (L.hdr :: pre ++ c :: post) := by
    refine Linked.congr (l := L.hdr :: pre ++ c :: post) h.linked fun x hx k => ?_
    by_cases hxc : x.ptr = c.ptr
    · obtain rfl : x = c := List.inj_on_of_nodup_map hd hx (by simp) hxc
      simp [upTo]
    · exact vis_of_ne hxc k
  obtain ⟨L₁, hun, hsame, h₁⟩ :=
    unlink_loop hd hrec hc hcn (L.level + 1) 0 (by omega) (by omega) hstart
  have hhdr : L₁.hdr = L.hdr := by simp [hdr, hsame.header]
  have h₂ : (L₁.setNode c.ptr none).Linked (upTo height) (L.hdr :: pre ++ post) :=
    h₁.drop hd fun q hq => by simp [hq]
  have hnull : ∀ x ∈ pre ++ post, x.ptr ≠ null := by
    intro x hx
    refine h.nonnull x ?_
    simp only [List.mem_append, List.mem_cons] at hx ⊢
    tauto
  have hheights : ∀ x ∈ pre ++ post, x.height ≤ L.level := by
    intro x hx
    refine h.heights x ?_
    simp only [List.mem_append, List.mem_cons] at hx ⊢
    tauto
  have h₂' : (L₁.setNode c.ptr none).Linked (upTo height)
      ((L₁.setNode c.ptr none).hdr :: (pre ++ post)) := by
    have he : (L₁.setNode c.ptr none).hdr = L.hdr := hhdr
    rwa [he, ← List.cons_append]
  obtain ⟨level, hlow, hle, hlow'⟩ := lowerLevel_eq h₂' hnull h.level_le hheights
  refine ⟨{ L₁.setNode c.ptr none with level := level, length := L₁.length - 1 }, ?_, ?_,
    hsame.header, by simp⟩
  · simp [KvStore.zremFound, hun, hsame.level, hlow]
  · refine ⟨h₂', ?_, ?_, hlow', hle.trans h.level_le, ?_⟩
    · have hsub : (L.hdr :: (pre ++ post)).Sublist (L.hdr :: (pre ++ c :: post)) := by simp
      have hn := (hsub.map ptr).nodup h.nodup
      rwa [← hhdr] at hn
    · intro x hx
      obtain rfl | hx := List.mem_cons.mp hx
      · have hh := h.nonnull L.hdr (by simp)
        rwa [← hhdr] at hh
      · exact hnull x hx
    · have hlen := h.length_eq
      simp only [List.length_append, List.length_cons] at hlen ⊢
      rw [hsame.length, hlen]
      push_cast
      omega

/-- `kvs_skiptable_zrem` looks at one member only, the one where the descent by keys ends, and
removes it when it has the key. -/
theorem Repr.zrem (h : L.Repr ns) (k : CString) :
    ∃ pre post, ns = pre ++ post ∧ Passed (fun x => x.key < k) height pre ∧
      Held (fun x => x.key < k) height post ∧
      ((∃ c post' L', post = c :: post' ∧ c.key = k ∧
          Fuel.Returns (fun n => kvsSkiptableZrem n L k) (0, L') ∧ L'.Repr (pre ++ post') ∧
          L'.header = L.header ∧ L'.nodes c.ptr = none) ∨
        (∀ c ∈ post.head?, c.key ≠ k) ∧
          Fuel.Returns (fun n => kvsSkiptableZrem n L k) (-1, L)) := by
  have htest : ∀ (x : Member S) f, zremLess k (x.node f) = true ↔ x.key < k := by
    intro x f
    simp [zremLess, node]
  obtain ⟨pre, u, post, update, rfl, hret, hread, hp, hh, hrec⟩ := h.descend htest
  have hzrem : ∀ {r : ℤ × SkipList S}, zremAt L u.ptr update k = some r →
      Fuel.Returns (fun n => kvsSkiptableZrem n L k) r := fun hr =>
    hret.bind (g := fun (r : Ptr × (ℕ → Option Ptr)) _ => zremAt L r.1 r.2 k) (.of_eq fun _ => hr)
  refine ⟨pre, post, rfl, hp, hh, ?_⟩
  cases post with
  | nil => exact .inr ⟨by simp, hzrem (by simp [zremAt, hread])⟩
  | cons c post =>
    obtain ⟨f, hf, -⟩ := h.linked (L.hdr :: pre) c post rfl
    have hcn : c.ptr ≠ null := h.nonnull c (by simp)
    by_cases hk : c.key = k
    · obtain ⟨L', hfound, hR, hheader, hnone⟩ := h.zremFound hrec
      refine .inl ⟨c, post, L', rfl, hk, hzrem ?_, hR, hheader, hnone⟩
      simp [zremAt, hread, hcn, hf, node, hk, hfound]
    · refine .inr ⟨by simpa using hk, hzrem ?_⟩
      simp [zremAt, hread, hcn, hf, node, hk]

/-- The end of `kvs_skiptable_zadd` for a new member. -/
theorem Repr.zaddNew {update : ℕ → Option Ptr} (h : L.Repr (pre ++ post))
    (hrec : Recorded update L.level (L.hdr :: pre)) (z : Member S) (hz : L.nodes z.ptr = none)
    (hzn : z.ptr ≠ null) (hlevel : z.height ≤ skipMaxLevel) :
    ∃ L', KvStore.zaddNew L update z.ptr z.height z.key z.value z.score = some (0, L') ∧
      L'.Repr (pre ++ z :: post) ∧ L'.header = L.header := by
  have hzfresh : z.ptr ∉ (L.hdr :: (pre ++ post)).map ptr := by
    intro hm
    obtain ⟨x, hx, hxz⟩ := List.mem_map.mp hm
    obtain ⟨a, b, hab⟩ := List.append_of_mem hx
    obtain ⟨f, hf, -⟩ := h.linked a x b hab
    rw [hxz, hz] at hf
    cases hf
  have hd : ((L.hdr :: pre ++ z :: post).map ptr).Nodup := by
    rw [List.map_append, List.map_cons (l := post), List.nodup_middle, ← List.map_append]
    exact List.nodup_cons.mpr ⟨hzfresh, h.nodup⟩
  set L₀ : SkipList S := if z.height > L.level then { L with level := z.height } else L with hL₀
  have hnodes : L₀.nodes = L.nodes ∧ L₀.header = L.header ∧ L₀.length = L.length := by
    simp only [hL₀]
    split_ifs <;> exact ⟨rfl, rfl, rfl⟩
  have hmax : L₀.level = max L.level z.height := by
    simp only [hL₀]
    split_ifs with hgt
    · exact (max_eq_right hgt.le).symm
    · exact (max_eq_left (not_lt.mp hgt)).symm
  set L₁ := createSkipNode L₀ z.ptr z.height z.key z.value z.score with hL₁
  have h₁ : L₁.Linked (vis z.ptr fun k => decide (k < 0)) (L.hdr :: pre ++ z :: post) := by
    refine Linked.addOff (L := L) h.linked hd (fun q hq => ?_)
      (f := List.replicate (z.height + 1) null) ?_ (by simp)
    · simp [hL₁, createSkipNode, hq, hnodes.1]
    · simp [hL₁, createSkipNode, node]
  have hrec' : Recorded (fun i => if L.level < i ∧ i ≤ z.height then some L.header else update i)
      z.height (L.hdr :: pre) := by
    intro j hj
    by_cases hjl : L.level < j
    · refine ⟨L.hdr, by simp [hjl, hj, hdr], [], pre, rfl, ?_, fun y hy => ?_⟩
      · rw [upTo_eq_true]
        exact hj.trans hlevel
      · rw [upTo_eq_false]
        exact (h.heights y (by simp [hy])).trans_lt hjl
    · obtain ⟨v, hv, hlast⟩ := hrec j (not_lt.mp hjl)
      exact ⟨v, by simp [hjl, hv], hlast⟩
  obtain ⟨L₂, hlink, hsame, h₂⟩ := link_loop hd hrec' (z.height + 1) 0 (by omega) h₁
  have hfields : L₂.header = L.header ∧ L₂.level = max L.level z.height ∧
      L₂.length = L.length :=
    ⟨hsame.header.trans hnodes.2.1, hsame.level.trans hmax, hsame.length.trans hnodes.2.2⟩
  have hhdr : L₂.hdr = L.hdr := by simp [hdr, hfields.1]
  refine ⟨{ L₂ with length := L₂.length + 1 }, ?_, ⟨?_, ?_, ?_, ?_, ?_, ?_⟩, hfields.1⟩
  · simp only [KvStore.zaddNew, ← hL₀, ← hL₁, hlink]
    rfl
  · have h₂' : L₂.Linked (upTo height) (L₂.hdr :: (pre ++ z :: post)) := by rwa [hhdr]
    exact h₂'
  · change ((L₂.hdr :: (pre ++ z :: post)).map ptr).Nodup
    rwa [hhdr]
  · intro x hx
    change x ∈ L₂.hdr :: (pre ++ z :: post) at hx
    rw [hhdr] at hx
    have hx' : x = z ∨ x ∈ L.hdr :: (pre ++ post) := by
      simp only [List.mem_cons, List.mem_append] at hx ⊢
      tauto
    obtain rfl | hx' := hx'
    · exact hzn
    · exact h.nonnull x hx'
  · intro x hx
    change x.height ≤ L₂.level
    rw [hfields.2.1]
    have hx' : x = z ∨ x ∈ pre ++ post := by
      simp only [List.mem_cons, List.mem_append] at hx ⊢
      tauto
    obtain rfl | hx' := hx'
    · exact le_max_right _ _
    · exact (h.heights x hx').trans (le_max_left _ _)
  · change L₂.level ≤ skipMaxLevel
    rw [hfields.2.1]
    exact max_le h.level_le hlevel
  · have hlen := h.length_eq
    simp only [List.length_append, List.length_cons] at hlen ⊢
    rw [hfields.2.2, hlen]
    push_cast
    omega

/-- Storing a new value at a member. -/
theorem Repr.setValue (h : L.Repr (pre ++ c :: post)) (v : CString) {f : List Ptr}
    (hf : L.nodes c.ptr = some (c.node f)) :
    (L.setNode c.ptr (some { c.node f with value := v })).Repr
      (pre ++ { c with value := v } :: post) := by
  set g : Member S → Member S := fun x => if x.ptr = c.ptr then { x with value := v } else x with hg
  have hptr : ∀ x, (g x).ptr = x.ptr := fun x => by
    simp only [hg]
    split_ifs <;> rfl
  have hheight : ∀ x, (g x).height = x.height := fun x => by
    simp only [hg]
    split_ifs <;> rfl
  have hd : ((L.hdr :: pre ++ c :: post).map ptr).Nodup := h.nodup
  obtain ⟨hpre, hpost⟩ := ptr_ne_of_nodup hd
  have hid : ∀ l : List (Member S), (∀ y ∈ l, y.ptr ≠ c.ptr) → l.map g = l := by
    intro l hl
    calc l.map g = l.map id := List.map_congr_left fun y hy => by simp [hg, hl y hy]
      _ = l := List.map_id l
  have hmap : (L.hdr :: (pre ++ c :: post)).map g =
      L.hdr :: (pre ++ { c with value := v } :: post) := by
    rw [← List.cons_append, List.map_append, List.map_cons (l := post), hid _ hpre, hid _ hpost]
    simp [hg]
  have hns : (pre ++ c :: post).map g = pre ++ { c with value := v } :: post := by
    simpa using (List.cons.inj hmap).2
  have hlinked : (L.setNode c.ptr (some { c.node f with value := v })).Linked (upTo height)
      ((L.hdr :: (pre ++ c :: post)).map g) := by
    refine h.linked.map hptr hheight fun x hx f' hf' => ?_
    by_cases hxc : x.ptr = c.ptr
    · obtain rfl : x = c := List.inj_on_of_nodup_map hd hx (by simp) hxc
      rw [hf] at hf'
      obtain rfl : f = f' := by simpa [node] using hf'
      simp [hg, node]
    · simp [hg, hxc, hf']
  refine ⟨?_, ?_, ?_, ?_, h.level_le, ?_⟩
  · rw [hmap] at hlinked
    exact hlinked
  · have hn := h.nodup
    have hcomp : (L.hdr :: (pre ++ c :: post)).map ptr =
        ((L.hdr :: (pre ++ c :: post)).map g).map ptr := by
      rw [List.map_map]
      exact List.map_congr_left fun y _ => (hptr y).symm
    rw [hcomp, hmap] at hn
    exact hn
  · intro x hx
    change x ∈ L.hdr :: _ at hx
    rw [← hmap] at hx
    obtain ⟨y, hy, rfl⟩ := List.mem_map.mp hx
    rw [hptr]
    exact h.nonnull y hy
  · intro x hx
    rw [← hns] at hx
    obtain ⟨y, hy, rfl⟩ := List.mem_map.mp hx
    rw [hheight]
    exact h.heights y hy
  · simpa using h.length_eq

section Places

variable [LT S] [DecidableLT S] [BEq S]

/-- The descent of `kvs_skiptable_zadd` goes past a member. -/
def Precedes (score : S) (k : CString) (x : Member S) : Prop :=
  x.score < score ∨ (x.score == score) = true ∧ x.key < k

omit [Zero S] in
theorem zaddLess_node (score : S) (k : CString) (x : Member S) (f : List Ptr) :
    zaddLess score k (x.node f) = true ↔ Precedes score k x := by
  simp [zaddLess, Precedes, node]

/-- `kvs_skiptable_zadd` replaces the value of the member where the descent ends when it has this
score and key, and otherwise puts a new member in front of it. -/
theorem Repr.zaddPlace (h : L.Repr ns) {p : Ptr} {level : ℕ} (hp : L.nodes p = none)
    (hpn : p ≠ null) (hlevel : level ≤ skipMaxLevel) (k v : CString) (score : S) :
    ∃ pre post L', ns = pre ++ post ∧ Passed (Precedes score k) height pre ∧
      Held (Precedes score k) height post ∧ L'.header = L.header ∧
      ((∃ c post', post = c :: post' ∧ (c.score == score) = true ∧ c.key = k ∧
          Fuel.Returns (fun n => kvsSkiptableZadd n L p level k v score) (1, L') ∧
          L'.Repr (pre ++ { c with value := v } :: post') ∧
          ∃ f, L.nodes c.ptr = some (c.node f) ∧
            L' = L.setNode c.ptr (some { c.node f with value := v })) ∨
        (∀ c ∈ post.head?, ¬ ((c.score == score) = true ∧ c.key = k)) ∧
          Fuel.Returns (fun n => kvsSkiptableZadd n L p level k v score) (0, L') ∧
          L'.Repr (pre ++ ⟨p, k, v, score, level⟩ :: post)) := by
  obtain ⟨pre, u, post, update, rfl, hret, hread, hpass, hheld, hrec⟩ :=
    h.descend (zaddLess_node score k)
  have hzadd : ∀ {r : ℤ × SkipList S}, zaddAt L u.ptr update p level k v score = some r →
      Fuel.Returns (fun n => kvsSkiptableZadd n L p level k v score) r := fun hr =>
    hret.bind (g := fun (r : Ptr × (ℕ → Option Ptr)) _ => zaddAt L r.1 r.2 p level k v score)
      (.of_eq fun _ => hr)
  obtain ⟨L', hnew, hR, hheader⟩ := h.zaddNew hrec ⟨p, k, v, score, level⟩ hp hpn hlevel
  cases post with
  | nil =>
    refine ⟨pre, [], L', rfl, hpass, hheld, hheader, .inr ⟨by simp, hzadd ?_, hR⟩⟩
    simp [zaddAt, hread, hnew]
  | cons c post =>
    obtain ⟨f, hf, -⟩ := h.linked (L.hdr :: pre) c post rfl
    have hcn : c.ptr ≠ null := h.nonnull c (by simp)
    by_cases hc : (c.score == score) = true ∧ c.key = k
    · refine ⟨pre, c :: post, L.setNode c.ptr (some { c.node f with value := v }), rfl, hpass, hheld,
        rfl, .inl ⟨c, post, rfl, hc.1, hc.2, hzadd ?_, h.setValue v hf, f, hf, rfl⟩⟩
      simp [zaddAt, hread, hcn, hf, hc, node]
    · refine ⟨pre, c :: post, L', rfl, hpass, hheld, hheader, .inr ⟨by simpa using hc, hzadd ?_, hR⟩⟩
      simp [zaddAt, hread, hcn, hf, hc, node, hnew]

end Places

section Compared

variable {R : Type*} [LinearOrder R] {val : S → R} {score : S}

/-- The place of a member, by its score as `val` orders it and then by its key. -/
def place (val : S → R) (x : Member S) : R ×ₗ CString := toLex (val x.score, x.key)

def SortedBy (val : S → R) (ns : List (Member S)) : Prop :=
  ns.Pairwise fun x y => place val x < place val y

variable [LT S] [BEq S]

/-- Against the members, the two comparisons of a score with theirs are those of `val`. -/
def Compares (val : S → R) (ns : List (Member S)) (score : S) : Prop :=
  ∀ x ∈ ns, (x.score < score ↔ val x.score < val score) ∧
    ((x.score == score) = true ↔ val x.score = val score)

omit [Zero S] in
theorem Compares.precedes_iff (h : Compares val ns score) (hx : x ∈ ns) (k : CString) :
    Precedes score k x ↔ place val x < toLex (val score, k) := by
  rw [Precedes, (h x hx).1, (h x hx).2, place, Prod.Lex.toLex_lt_toLex]

/-- Among members in order, the place where the descent ends is the one of the score and key. -/
theorem Repr.zaddBy [DecidableLT S] (h : L.Repr ns) (hs : SortedBy val ns)
    (hcmp : Compares val ns score) {p : Ptr} {level : ℕ} (hp : L.nodes p = none) (hpn : p ≠ null)
    (hlevel : level ≤ skipMaxLevel) (k v : CString) :
    ∃ pre post L', (∀ n ∈ pre, place val n < toLex (val score, k)) ∧ L'.header = L.header ∧
      ((∃ c, ns = pre ++ c :: post ∧ (c.score == score) = true ∧ c.key = k ∧
          Fuel.Returns (fun n => kvsSkiptableZadd n L p level k v score) (1, L') ∧
          L'.Repr (pre ++ { c with value := v } :: post) ∧
          ∃ f, L.nodes c.ptr = some (c.node f) ∧
            L' = L.setNode c.ptr (some { c.node f with value := v })) ∨
        ns = pre ++ post ∧ (∀ d ∈ post, toLex (val score, k) < place val d) ∧
          Fuel.Returns (fun n => kvsSkiptableZadd n L p level k v score) (0, L') ∧
          L'.Repr (pre ++ ⟨p, k, v, score, level⟩ :: post)) := by
  obtain ⟨pre, post, L', rfl, hpass, hheld, hheader, hcase⟩ := h.zaddPlace hp hpn hlevel k v score
  have hless := fun x hx => hcmp.precedes_iff (x := x) hx k
  have hmono : (pre ++ post).Pairwise fun x y => Precedes score k y → Precedes score k x :=
    hs.imp_of_mem fun hx hy hxy hl => (hless _ hx).mpr (hxy.trans ((hless _ hy).mp hl))
  rw [List.pairwise_append] at hmono
  have hlo : ∀ x ∈ pre, place val x < toLex (val score, k) := fun x hx =>
    (hless x (by simp [hx])).mp (hpass.of_sorted hmono.1 x hx)
  have hhi : ∀ x ∈ post, ¬ place val x < toLex (val score, k) := fun x hx hlt =>
    hheld.of_sorted hmono.2.1 x hx ((hless x (by simp [hx])).mpr hlt)
  obtain ⟨c, post', rfl, hsc, hk, hrest⟩ | ⟨hno, hret, hR⟩ := hcase
  · exact ⟨pre, post', L', hlo, hheader, .inl ⟨c, rfl, hsc, hk, hrest⟩⟩
  · refine ⟨pre, post, L', hlo, hheader, .inr ⟨rfl, fun d hd => ?_, hret, hR⟩⟩
    cases post with
    | nil => cases hd
    | cons c post =>
      have hcr : toLex (val score, k) < place val c := by
        refine lt_of_le_of_ne (not_lt.mp (hhi c (by simp))) fun he => ?_
        have he' := congrArg ofLex he
        simp only [place, ofLex_toLex, Prod.mk.injEq] at he'
        exact hno c rfl ⟨(hcmp c (by simp)).2.mpr he'.1.symm, he'.2.symm⟩
      rw [SortedBy, List.pairwise_append, List.pairwise_cons] at hs
      obtain rfl | hd := List.mem_cons.mp hd
      · exact hcr
      · exact hcr.trans (hs.2.1.1 d hd)

end Compared

variable [LinearOrder S]

/-- Members are ordered by score and then by key. -/
def rank (x : Member S) : S ×ₗ CString := toLex (x.score, x.key)

def Sorted (ns : List (Member S)) : Prop := ns.Pairwise fun x y => rank x < rank y

omit [Zero S] in
theorem zaddLess_iff (score : S) (k : CString) (x : Member S) (f : List Ptr) :
    zaddLess score k (x.node f) = true ↔ rank x < toLex (score, k) := by
  simp [zaddLess, rank, node, Prod.Lex.toLex_lt_toLex]

/-- The same where the scores themselves are ordered. -/
theorem Repr.zadd (h : L.Repr ns) (hs : Sorted ns) {p : Ptr} {level : ℕ} (hp : L.nodes p = none)
    (hpn : p ≠ null) (hlevel : level ≤ skipMaxLevel) (k v : CString) (score : S) :
    ∃ pre post L', (∀ n ∈ pre, rank n < toLex (score, k)) ∧ L'.header = L.header ∧
      ((∃ c, ns = pre ++ c :: post ∧ c.score = score ∧ c.key = k ∧
          Fuel.Returns (fun n => kvsSkiptableZadd n L p level k v score) (1, L') ∧
          L'.Repr (pre ++ { c with value := v } :: post) ∧
          ∃ f, L.nodes c.ptr = some (c.node f) ∧
            L' = L.setNode c.ptr (some { c.node f with value := v })) ∨
        ns = pre ++ post ∧ (∀ d ∈ post, toLex (score, k) < rank d) ∧
          Fuel.Returns (fun n => kvsSkiptableZadd n L p level k v score) (0, L') ∧
          L'.Repr (pre ++ ⟨p, k, v, score, level⟩ :: post)) := by
  have hs' : SortedBy id ns := hs
  have hcmp : Compares id ns score := fun x _ => ⟨.rfl, beq_iff_eq⟩
  obtain ⟨pre, post, L', hlo, hheader, ⟨c, hns, hsc, hrest⟩ | hnew⟩ :=
    h.zaddBy hs' hcmp hp hpn hlevel k v
  · exact ⟨pre, post, L', hlo, hheader, .inl ⟨c, hns, beq_iff_eq.mp hsc, hrest⟩⟩
  · exact ⟨pre, post, L', hlo, hheader, .inr hnew⟩

end Zero

end SkipList
end KvStore
