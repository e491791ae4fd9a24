import NebulaXTrader.Book.OrderMap
import Mathlib.Data.List.Perm.Subperm
import Mathlib.Data.List.Range

/-!
This module contains the shape invariant of `OrderMap` and what `find`, `insert` and `erase` do to the
slots that are stored under each order reference.
-/

namespace NebulaXTrader

namespace OrderMap

theorem le_noIdx {capacity : Nat} (h : capacity ≤ 2 ^ 31) : capacity ≤ noIdx := by
  apply h.trans
  decide

theorem hash_congr {m m' : OrderMap} (h : m'.capacity = m.capacity) : m'.hash = m.hash := by
  funext id
  simp [hash, hashShift, h]

/--
The shape of the table: the free list and the chains are proper lists of nodes, a node is on at most
one of them, every chain node carries the number of its bucket, and the overflow map only holds
references of treeified buckets.
-/
structure Wf (m : OrderMap) (fl : List Nat) : Prop where
  cap : m.capacity ≤ noIdx
  free : Chain.IsList m.next noIdx m.freeHead.idx fl
  free_lt : ∀ i ∈ fl, i < m.capacity
  chain : ∀ b, Chain.IsList m.next noIdx (m.buckets b) (m.chain b)
  chain_lt : ∀ b, ∀ i ∈ m.chain b, i < m.capacity
  bucket : ∀ b, ∀ i ∈ m.chain b, (m.nodes i).bucket = b
  hashed : ∀ b, ∀ i ∈ m.chain b, m.hash (m.nodes i).orderRef = b
  fresh : ∀ b, ∀ i ∈ m.chain b, i ∉ fl
  overflow : ∀ ref, m.state (m.hash ref) = .chain → m.overflow ref = none

theorem chain_eq {m : OrderMap} {b : Nat} {l : List Nat}
    (h : Chain.IsList m.next noIdx (m.buckets b) l) (hlt : ∀ i ∈ l, i < m.capacity)
    : m.chain b = l := by
  apply h.walk_eq
  exact Chain.length_le_of_nodup_of_lt h.nodup hlt

theorem Wf.of_chains {m : OrderMap} {fl : List Nat} (L : Nat → List Nat)
    (cap : m.capacity ≤ noIdx)
    (free : Chain.IsList m.next noIdx m.freeHead.idx fl)
    (free_lt : ∀ i ∈ fl, i < m.capacity)
    (hL : ∀ b, Chain.IsList m.next noIdx (m.buckets b) (L b))
    (hlt : ∀ b, ∀ i ∈ L b, i < m.capacity)
    (hb : ∀ b, ∀ i ∈ L b, (m.nodes i).bucket = b)
    (hh : ∀ b, ∀ i ∈ L b, m.hash (m.nodes i).orderRef = b)
    (hf : ∀ b, ∀ i ∈ L b, i ∉ fl)
    (ho : ∀ ref, m.state (m.hash ref) = .chain → m.overflow ref = none)
    : m.Wf fl ∧ ∀ b, m.chain b = L b := by
  have hc : ∀ b, m.chain b = L b := fun b => chain_eq (hL b) (hlt b)
  refine ⟨⟨cap, free, free_lt, ?_, ?_, ?_, ?_, ?_, ho⟩, hc⟩
  all_goals
    intro b
    rw [hc b]
  . exact hL b
  . exact hlt b
  . exact hb b
  . exact hh b
  . exact hf b

theorem Wf.init {capacity : Nat} (h0 : 0 < capacity) (h : capacity ≤ noIdx)
    : (init capacity).Wf (List.range capacity) := by
  have hfree : ∀ n k, k + n = capacity → 0 < n →
      Chain.IsList (OrderMap.init capacity).next noIdx k (List.range' k n) := by
    intro n
    induction n with
    | zero => omega
    | succ n ih =>
      intro k hk _
      rw [List.range'_succ, Chain.isList_cons]
      refine ⟨rfl, by omega, ?_⟩
      by_cases hn : n = 0
      . subst hn
        have : ¬ k + 1 < capacity := by omega
        simp [next, OrderMap.init, this]
      . have hlt : k + 1 < capacity := by omega
        have : (OrderMap.init capacity).next k = k + 1 := by
          simp [next, OrderMap.init, hlt]
        rw [this]
        exact ih (k + 1) (by omega) (by omega)
  have hlist := hfree capacity 0 (by omega) h0
  rw [← List.range_eq_range'] at hlist
  have : (OrderMap.init capacity).Wf (List.range capacity) ∧
      ∀ b, (OrderMap.init capacity).chain b = [] := Wf.of_chains (fun _ => []) h hlist
    (by simp [OrderMap.init]) (by simp [OrderMap.init]) (by simp) (by simp) (by simp) (by simp)
    (by simp [OrderMap.init])
  exact this.1

section Links

variable {m : OrderMap} {fl : List Nat} {b i x p ref order : Nat} {l l₁ l₂ : List Nat}

theorem setNext_next : (m.setNext x i).next = Function.update m.next x i := by
  funext j
  by_cases h : j = x
  . subst h
    simp [setNext, next]
  . simp [setNext, next, h]

theorem setBucket_next : (m.setBucket b i).next = m.next := rfl

theorem setNext_bucket (j : Nat) : ((m.setNext x i).nodes j).bucket = (m.nodes j).bucket := by
  by_cases h : j = x
  . subst h
    simp [setNext]
  . simp [setNext, h]

theorem setNext_orderRef (j : Nat)
    : ((m.setNext x i).nodes j).orderRef = (m.nodes j).orderRef := by
  by_cases h : j = x
  . subst h
    simp [setNext]
  . simp [setNext, h]

theorem setNext_order (j : Nat) : ((m.setNext x i).nodes j).order = (m.nodes j).order := by
  by_cases h : j = x
  . subst h
    simp [setNext]
  . simp [setNext, h]

theorem Wf.linkNode (h : m.Wf (i :: fl)) (ref order : Nat)
    : ((m.takeNode i).linkNode (m.hash ref) i ref order).Wf fl ∧
      ∀ b, ((m.takeNode i).linkNode (m.hash ref) i ref order).chain b =
        if b = m.hash ref then i :: m.chain b else m.chain b := by
  obtain ⟨_, hne, hfree⟩ := Chain.isList_cons.1 h.free
  have hnot : i ∉ fl := by
    have := h.free.nodup
    rw [List.nodup_cons] at this
    exact this.1
  have hfresh : ∀ b, i ∉ m.chain b := fun b hm => h.fresh b i hm (by simp)
  have hnext : ((m.takeNode i).linkNode (m.hash ref) i ref order).next =
      Function.update m.next i (m.buckets (m.hash ref)) := by
    funext j
    by_cases hj : j = i
    . subst hj
      simp [OrderMap.linkNode, takeNode, next]
    . simp [OrderMap.linkNode, takeNode, next, hj]
  have hlt : ∀ b, ∀ j ∈ i :: m.chain b, j < m.capacity := by
    intro b j hj
    rw [List.mem_cons] at hj
    cases hj with
    | inl hj => exact hj ▸ h.free_lt i (by simp)
    | inr hj => exact h.chain_lt b j hj
  apply Wf.of_chains (fun b => if b = m.hash ref then i :: m.chain b else m.chain b)
  . exact h.cap
  . rw [hnext]
    exact hfree.update hnot _
  . intro j hj
    exact h.free_lt j (by simp [hj])
  . intro b
    rw [hnext]
    by_cases hb : b = m.hash ref
    . subst hb
      simp only [OrderMap.linkNode, takeNode, Function.update_self, if_true]
      exact (h.chain _).push (hfresh _) hne
    . simp only [OrderMap.linkNode, takeNode, Function.update_of_ne hb, hb, if_false]
      exact (h.chain b).update (hfresh b) _
  . intro b j hj
    apply hlt b j
    split at hj
    . exact hj
    . simp [hj]
  . intro b j hj
    by_cases hji : j = i
    . subst hji
      split at hj
      . next hb => simp [OrderMap.linkNode, takeNode, hb]
      . exact absurd hj (hfresh b)
    . have : j ∈ m.chain b := by
        split at hj
        . simpa [hji] using hj
        . exact hj
      simpa [OrderMap.linkNode, takeNode, hji] using h.bucket b j this
  . intro b j hj
    have hhash : ((m.takeNode i).linkNode (m.hash ref) i ref order).hash = m.hash :=
      hash_congr rfl
    rw [hhash]
    by_cases hji : j = i
    . subst hji
      split at hj
      . next hb => simp [OrderMap.linkNode, hb]
      . exact absurd hj (hfresh b)
    . have : j ∈ m.chain b := by
        split at hj
        . simpa [hji] using hj
        . exact hj
      simpa [OrderMap.linkNode, takeNode, hji] using h.hashed b j this
  . intro b j hj
    split at hj
    . rw [List.mem_cons] at hj
      cases hj with
      | inl hj => simpa [hj] using hnot
      | inr hj => exact fun hm => h.fresh b j hj (by simp [hm])
    . exact fun hm => h.fresh b j hj (by simp [hm])
  . exact h.overflow

theorem Wf.freeNode (h : m.Wf fl) (m' : OrderMap) (hx : x ∈ m.chain b)
    (hcap : m'.capacity = m.capacity) (hhead : m'.freeHead = m.freeHead)
    (hstate : m'.state = m.state) (hov : m'.overflow = m.overflow)
    (hfree : ∀ j ∈ fl, m'.next j = m.next j)
    (hbucket : ∀ j, (m'.nodes j).bucket = (m.nodes j).bucket)
    (href : ∀ j, (m'.nodes j).orderRef = (m.nodes j).orderRef)
    (L : Nat → List Nat) (hL : ∀ b, Chain.IsList m'.next noIdx (m'.buckets b) (L b))
    (hsub : ∀ b, ∀ j ∈ L b, j ∈ m.chain b) (hxL : ∀ b, x ∉ L b)
    : ((m'.freeNode x).dropCounts b).Wf (x :: fl) ∧
      ∀ b', ((m'.freeNode x).dropCounts b).chain b' = L b' := by
  -- Taking a node off a chain and pushing it on the free list: `m'` is the table whose links
  -- already bypass `x`.
  have hxne : x ≠ noIdx := (h.chain b).ne_stop hx
  have hnext : ((m'.freeNode x).dropCounts b).next = Function.update m'.next x m.freeHead.idx := by
    rw [← hhead]
    exact setNext_next
  have hnodes : ((m'.freeNode x).dropCounts b).nodes = (m'.setNext x m'.freeHead.idx).nodes := rfl
  have hhash : ((m'.freeNode x).dropCounts b).hash = m.hash := hash_congr hcap
  apply Wf.of_chains L
  . simpa [OrderMap.freeNode, dropCounts, setNext, hcap] using h.cap
  . rw [hnext]
    apply Chain.IsList.push _ (h.fresh b x hx) hxne
    exact h.free.congr hfree
  . intro j hj
    rw [List.mem_cons] at hj
    have hcap' : ((m'.freeNode x).dropCounts b).capacity = m.capacity := hcap
    rw [hcap']
    cases hj with
    | inl hj => simpa [hj] using h.chain_lt b x hx
    | inr hj => exact h.free_lt j hj
  . intro b'
    rw [hnext]
    exact (hL b').update (hxL b') _
  . intro b' j hj
    have hcap' : ((m'.freeNode x).dropCounts b).capacity = m.capacity := hcap
    rw [hcap']
    exact h.chain_lt b' j (hsub b' j hj)
  . intro b' j hj
    rw [hnodes, setNext_bucket, hbucket]
    exact h.bucket b' j (hsub b' j hj)
  . intro b' j hj
    rw [hhash, hnodes, setNext_orderRef, href]
    exact h.hashed b' j (hsub b' j hj)
  . intro b' j hj
    rw [List.mem_cons, not_or]
    refine ⟨?_, h.fresh b' j (hsub b' j hj)⟩
    rintro rfl
    exact hxL b' hj
  . intro ref hs
    have hs' : ((m'.freeNode x).dropCounts b).state = m.state := hstate
    have ho : ((m'.freeNode x).dropCounts b).overflow = m.overflow := hov
    rw [hhash, hs'] at hs
    rw [ho]
    exact h.overflow ref hs

theorem Wf.not_mem_of_ne (h : m.Wf fl) {b' : Nat} (hb : b' ≠ b) (hx : x ∈ m.chain b)
    : x ∉ m.chain b' := by
  intro hx'
  have h1 := h.bucket b x hx
  have h2 := h.bucket b' x hx'
  exact hb (h2.symm.trans h1)

theorem Wf.unlinkHead (h : m.Wf fl) (hc : m.chain b = x :: l)
    : (m.unlinkHead b x).Wf (x :: fl) ∧
      ∀ b', (m.unlinkHead b x).chain b' = if b' = b then l else m.chain b' := by
  have hx : x ∈ m.chain b := by simp [hc]
  have hlist := h.chain b
  rw [hc] at hlist
  have hnd := hlist.nodup
  rw [List.nodup_cons] at hnd
  obtain ⟨_, _, hl⟩ := Chain.isList_cons.1 hlist
  refine h.freeNode (m.setBucket b (m.next x)) hx rfl rfl rfl rfl (fun _ _ => rfl)
    (fun _ => rfl) (fun _ => rfl) (fun b' => if b' = b then l else m.chain b') ?_ ?_ ?_
  . intro b'
    rw [setBucket_next]
    by_cases hb : b' = b
    . subst hb
      simpa [setBucket] using hl
    . simpa [setBucket, hb] using h.chain b'
  . intro b' j hj
    split at hj
    . next hb => simp [hb, hc, hj]
    . exact hj
  . intro b'
    split
    . exact hnd.1
    . next hb => exact h.not_mem_of_ne hb hx

theorem Wf.unlinkAfter (h : m.Wf fl) (hc : m.chain b = l₁ ++ p :: x :: l₂)
    : (m.unlinkAfter b p x).Wf (x :: fl) ∧
      ∀ b', (m.unlinkAfter b p x).chain b' = if b' = b then l₁ ++ p :: l₂ else m.chain b' := by
  have hx : x ∈ m.chain b := by simp [hc]
  have hp : p ∈ m.chain b := by simp [hc]
  have hlist := h.chain b
  rw [hc] at hlist
  have hnd := hlist.nodup
  refine h.freeNode (m.setNext p (m.next x)) hx rfl rfl rfl rfl ?_ setNext_bucket
    setNext_orderRef (fun b' => if b' = b then l₁ ++ p :: l₂ else m.chain b') ?_ ?_ ?_
  . intro j hj
    rw [setNext_next]
    have : j ≠ p := by
      rintro rfl
      exact h.fresh b j hp hj
    simp [this]
  . intro b'
    rw [setNext_next]
    by_cases hb : b' = b
    . subst hb
      simp only [if_true]
      exact hlist.unlink
    . simp only [hb, if_false]
      exact (h.chain b').update (h.not_mem_of_ne hb hp) _
  . intro b' j hj
    split at hj
    . next hb =>
      subst hb
      rw [hc]
      simp only [List.mem_append, List.mem_cons] at hj ⊢
      tauto
    . exact hj
  . intro b'
    split
    . rw [List.nodup_append] at hnd
      obtain ⟨_, hnd2, hdisj⟩ := hnd
      simp only [List.nodup_cons, List.mem_cons, not_or] at hnd2
      simp only [List.mem_append, List.mem_cons, not_or]
      refine ⟨fun hm => hdisj x hm x (by simp) rfl, ?_, hnd2.2.1⟩
      exact fun he => hnd2.1.1 he.symm
    . next hb => exact h.not_mem_of_ne hb hx

end Links

def entries (m : OrderMap) (ref : Nat) : List Nat :=
  if m.state (m.hash ref) = .chain then
    ((m.chain (m.hash ref)).filter (fun i => (m.nodes i).orderRef = ref)).map
      (fun i => (m.nodes i).order)
  else
    (m.overflow ref).toList

section Find

variable {m : OrderMap} {fl : List Nat} {b idx ref order : Nat} {l : List Nat}

theorem entries_init (capacity ref : Nat) : (init capacity).entries ref = [] := by
  have : (init capacity).chain ((init capacity).hash ref) = [] := by
    apply chain_eq
    . exact Chain.isList_nil.2 rfl
    . intro i hi
      cases hi
  unfold entries
  rw [this]
  rfl

theorem findLoop_eq (hlist : Chain.IsList m.next noIdx idx l)
    (hb : ∀ i ∈ l, (m.nodes i).bucket = b) {fuel : Nat} (hf : l.length < fuel)
    : m.findLoop b ref fuel idx =
      ((l.filter (fun i => (m.nodes i).orderRef = ref)).map (fun i => (m.nodes i).order)).head? := by
  induction l generalizing idx fuel with
  | nil =>
    rw [Chain.isList_nil] at hlist
    cases fuel with
    | zero => omega
    | succ fuel => simp [findLoop, hlist]
  | cons x l ih =>
    obtain ⟨rfl, hne, hl⟩ := Chain.isList_cons.1 hlist
    cases fuel with
    | zero => omega
    | succ fuel =>
      have hbx := hb idx (by simp)
      by_cases href : (m.nodes idx).orderRef = ref
      . simp [findLoop, hne, hbx, href]
      . have ih := ih hl (fun i hi => hb i (by simp [hi])) (Nat.lt_of_succ_lt_succ hf)
        simp [findLoop, hne, hbx, href, ih]

theorem Wf.find_eq (h : m.Wf fl) : m.find ref = (m.entries ref).head? := by
  unfold find entries
  by_cases hs : m.state (m.hash ref) = .chain
  . simp only [hs, ne_eq, not_true_eq_false, if_false, if_true]
    apply findLoop_eq (h.chain _) (h.bucket _)
    have := Chain.length_le_of_nodup_of_lt (h.chain (m.hash ref)).nodup (h.chain_lt _)
    omega
  . simp [hs]

end Find

section Erase

variable {m : OrderMap} {fl : List Nat} {b p ref : Nat} {l₁ l₂ : List Nat}

theorem unlinkHead_nodes (x i : Nat)
    : ((m.unlinkHead b x).nodes i).orderRef = (m.nodes i).orderRef ∧
      ((m.unlinkHead b x).nodes i).order = (m.nodes i).order :=
  ⟨setNext_orderRef (m := m.setBucket b (m.next x)) i,
    setNext_order (m := m.setBucket b (m.next x)) i⟩

theorem unlinkHead_size (b x : Nat) : (m.unlinkHead b x).size = m.size - 1 := rfl

theorem unlinkAfter_size (b p x : Nat) : (m.unlinkAfter b p x).size = m.size - 1 := rfl

theorem unlinkAfter_nodes (p x i : Nat)
    : ((m.unlinkAfter b p x).nodes i).orderRef = (m.nodes i).orderRef ∧
      ((m.unlinkAfter b p x).nodes i).order = (m.nodes i).order := by
  constructor
  . exact (setNext_orderRef (m := m.setNext p (m.next x)) i).trans (setNext_orderRef i)
  . exact (setNext_order (m := m.setNext p (m.next x)) i).trans (setNext_order i)

structure Erased (m m' : OrderMap) (b ref : Nat) : Prop where
  wf : ∃ fl', m'.Wf fl'
  capacity : m'.capacity = m.capacity
  state : m'.state = m.state
  overflow : m'.overflow = m.overflow
  nodes : ∀ i, (m'.nodes i).orderRef = (m.nodes i).orderRef ∧ (m'.nodes i).order = (m.nodes i).order
  other : ∀ b', b' ≠ b → m'.chain b' = m.chain b'
  chain : m'.chain b = (m.chain b).eraseP (fun i => (m.nodes i).orderRef = ref)
  size : m'.size = if (m.chain b).any (fun i => (m.nodes i).orderRef = ref) then m.size - 1 else m.size

theorem eraseP_skip {f : Nat → Bool} {l : List Nat} (hc : l = l₁ ++ p :: l₂)
    (hno : ∀ i ∈ l₁ ++ [p], f i = false) : l.eraseP f = l₁ ++ p :: l₂.eraseP f := by
  rw [hc, show l₁ ++ p :: l₂ = (l₁ ++ [p]) ++ l₂ by simp]
  rw [List.eraseP_append_right]
  . simp
  . intro i hi
    simp [hno i hi]

theorem any_skip {f : Nat → Bool} {l : List Nat} (hc : l = l₁ ++ p :: l₂)
    (hno : ∀ i ∈ l₁ ++ [p], f i = false) : l.any f = l₂.any f := by
  have hnone : (l₁ ++ [p]).any f = false := by
    rw [List.any_eq_false]
    intro i hi
    simp [hno i hi]
  rw [hc, show l₁ ++ p :: l₂ = (l₁ ++ [p]) ++ l₂ by simp, List.any_append, hnone, Bool.false_or]

theorem eraseLoop_some (h : m.Wf fl) (hc : m.chain b = l₁ ++ p :: l₂)
    (hno : ∀ i ∈ l₁ ++ [p], (m.nodes i).orderRef ≠ ref) {fuel : Nat} (hf : l₂.length < fuel)
    : Erased m (m.eraseLoop b ref fuel (some p)) b ref := by
  induction fuel generalizing l₁ p l₂ with
  | zero => omega
  | succ fuel ih =>
    have hp : p ∈ m.chain b := by simp [hc]
    have hpne : p ≠ noIdx := (h.chain b).ne_stop hp
    have hpb := h.bucket b p hp
    have hlist := h.chain b
    rw [hc] at hlist
    obtain ⟨_, _, hl₂⟩ := Chain.isList_cons.1 hlist.drop
    have hskip := eraseP_skip (f := fun i => (m.nodes i).orderRef = ref) hc (by simpa using hno)
    have hany := any_skip (f := fun i => (m.nodes i).orderRef = ref) hc (by simpa using hno)
    cases l₂ with
    | nil =>
      have hstop := Chain.isList_nil.1 hl₂
      simp only [eraseLoop, hpne, hpb, hstop, if_false, if_true, ne_eq, not_true_eq_false]
      refine ⟨⟨fl, h⟩, rfl, rfl, rfl, fun _ => ⟨rfl, rfl⟩, fun _ _ => rfl, ?_, ?_⟩
      . rw [hskip, hc]
        simp
      . rw [hany]
        simp
    | cons x l₂ =>
      obtain ⟨hx, hxne, _⟩ := Chain.isList_cons.1 hl₂
      by_cases hm : (m.nodes x).orderRef = ref
      . simp only [eraseLoop, hpne, hpb, hx, hxne, hm, if_false, if_true, ne_eq,
          not_true_eq_false]
        obtain ⟨hwf, hchain⟩ := h.unlinkAfter hc
        refine ⟨⟨_, hwf⟩, rfl, rfl, rfl, unlinkAfter_nodes p x, ?_, ?_, ?_⟩
        . intro b' hb
          rw [hchain b', if_neg hb]
        . rw [hchain b, if_pos rfl, hskip]
          simp [hm]
        . rw [hany]
          simp [hm, unlinkAfter_size]
      . simp only [eraseLoop, hpne, hpb, hx, hxne, hm, if_false, ne_eq, not_true_eq_false]
        have hc' : m.chain b = (l₁ ++ [p]) ++ x :: l₂ := by simp [hc]
        apply ih hc'
        . intro i hi
          rw [List.mem_append] at hi
          cases hi with
          | inl hi => exact hno i hi
          | inr hi =>
            rw [List.mem_singleton] at hi
            exact hi ▸ hm
        . simpa using hf

theorem Wf.eraseLoop_none (h : m.Wf fl) (b ref : Nat)
    : Erased m (m.eraseLoop b ref (m.capacity + 1) none) b ref := by
  have hlist := h.chain b
  cases hc : m.chain b with
  | nil =>
    rw [hc, Chain.isList_nil] at hlist
    simp only [eraseLoop, hlist, if_true]
    refine ⟨⟨fl, h⟩, rfl, rfl, rfl, fun _ => ⟨rfl, rfl⟩, fun _ _ => rfl, ?_, ?_⟩
    . simp [hc]
    . simp [hc]
  | cons x l =>
    rw [hc] at hlist
    obtain ⟨hx, hne, _⟩ := Chain.isList_cons.1 hlist
    by_cases hm : (m.nodes x).orderRef = ref
    . simp only [eraseLoop, hx, hne, hm, if_false, if_true]
      obtain ⟨hwf, hchain⟩ := h.unlinkHead hc
      refine ⟨⟨_, hwf⟩, rfl, rfl, rfl, unlinkHead_nodes x, ?_, ?_, ?_⟩
      . intro b' hb
        rw [hchain b', if_neg hb]
      . rw [hchain b, if_pos rfl, hc]
        simp [hm]
      . rw [hc]
        simp [hm, unlinkHead_size]
    . simp only [eraseLoop, hx, hne, hm, if_false]
      have hc' : m.chain b = [] ++ x :: l := hc
      apply eraseLoop_some h hc'
      . simpa using hm
      . have := Chain.length_le_of_nodup_of_lt hlist.nodup (hc ▸ h.chain_lt b)
        rw [List.length_cons] at this
        omega

end Erase

theorem entries_congr (m m' : OrderMap) {ref : Nat} (hcap : m'.capacity = m.capacity)
    (hstate : m'.state (m.hash ref) = m.state (m.hash ref))
    (hchain : m'.chain (m.hash ref) = m.chain (m.hash ref))
    (hov : m'.overflow ref = m.overflow ref)
    (hnodes : ∀ i ∈ m.chain (m.hash ref),
      (m'.nodes i).orderRef = (m.nodes i).orderRef ∧ (m'.nodes i).order = (m.nodes i).order)
    : m'.entries ref = m.entries ref := by
  have hfilter : (m.chain (m.hash ref)).filter (fun i => (m'.nodes i).orderRef = ref) =
      (m.chain (m.hash ref)).filter (fun i => (m.nodes i).orderRef = ref) := by
    apply List.filter_congr
    intro i hi
    rw [(hnodes i hi).1]
  unfold entries
  rw [hash_congr hcap, hstate, hchain, hov, hfilter]
  split
  . apply List.map_congr_left
    intro i hi
    exact (hnodes i (List.mem_of_mem_filter hi)).2
  . rfl

theorem entries_of_treeified {m : OrderMap} {ref : Nat} (h : ¬ m.state (m.hash ref) = .chain)
    : m.entries ref = (m.overflow ref).toList := by
  simp [entries, h]

theorem Wf.withOverflow {m m' : OrderMap} {fl : List Nat} (h : m.Wf fl)
    (hcap : m'.capacity = m.capacity) (hnodes : m'.nodes = m.nodes)
    (hbuckets : m'.buckets = m.buckets) (hhead : m'.freeHead = m.freeHead)
    (hnext : m'.next = m.next) (hchain : m'.chain = m.chain)
    (hov : ∀ ref, m'.state (m.hash ref) = .chain → m'.overflow ref = none)
    : m'.Wf fl := by
  refine ⟨?_, ?_, ?_, ?_, ?_, ?_, ?_, ?_, ?_⟩
  . rw [hcap]
    exact h.cap
  . rw [hnext, hhead]
    exact h.free
  . rw [hcap]
    exact h.free_lt
  . rw [hnext, hbuckets, hchain]
    exact h.chain
  . rw [hcap, hchain]
    exact h.chain_lt
  . rw [hchain, hnodes]
    exact h.bucket
  . rw [hchain, hnodes, hash_congr hcap]
    exact h.hashed
  . rw [hchain]
    exact h.fresh
  . rw [hash_congr hcap]
    exact hov

theorem map_filter_eraseP {f : Nat → Bool} {g : Nat → Nat} (l : List Nat)
    : ((l.eraseP f).filter f).map g = ((l.filter f).map g).tail := by
  induction l with
  | nil => rfl
  | cons x l ih =>
    by_cases hx : f x
    . simp [hx]
    . simp [hx, ih]

theorem filter_eraseP_of_disjoint {f f' : Nat → Bool} (h : ∀ i, f i = true → f' i = false)
    (l : List Nat) : (l.eraseP f).filter f' = l.filter f' := by
  induction l with
  | nil => rfl
  | cons x l ih =>
    by_cases hx : f x
    . simp [hx, h x hx]
    . simp [hx, ih, List.filter_cons]

theorem Wf.erase {m : OrderMap} {fl : List Nat} (h : m.Wf fl) (ref : Nat)
    : (∃ fl', (m.erase ref).Wf fl') ∧ (m.erase ref).capacity = m.capacity ∧
      (m.erase ref).entries ref = (m.entries ref).tail ∧
      ∀ r, r ≠ ref → (m.erase ref).entries r = m.entries r := by
  by_cases hs : m.state (m.hash ref) = .chain
  . have he := h.eraseLoop_none (m.hash ref) ref
    have heq : m.erase ref = m.eraseLoop (m.hash ref) ref (m.capacity + 1) none := by
      simp [OrderMap.erase, hs]
    rw [← heq] at he
    generalize m.erase ref = m' at he
    have hnodes : ∀ l : List Nat, l.map (fun i => (m'.nodes i).order) =
        l.map (fun i => (m.nodes i).order) := by
      intro l
      apply List.map_congr_left
      intro i _
      exact (he.nodes i).2
    have hrefs : ∀ r, (fun i => decide ((m'.nodes i).orderRef = r)) =
        fun i => decide ((m.nodes i).orderRef = r) := by
      intro r
      funext i
      rw [(he.nodes i).1]
    refine ⟨he.wf, he.capacity, ?_, ?_⟩
    . unfold entries
      rw [hash_congr he.capacity, he.state, if_pos hs, if_pos hs, he.chain, hrefs, hnodes]
      apply map_filter_eraseP
    . intro r hr
      unfold entries
      rw [hash_congr he.capacity, he.state, he.overflow]
      split
      . rw [hrefs, hnodes]
        by_cases hb : m.hash r = m.hash ref
        . rw [hb, he.chain, filter_eraseP_of_disjoint]
          intro i hi
          have hi : (m.nodes i).orderRef = ref := by simpa using hi
          simpa [hi] using fun h => hr h.symm
        . rw [he.other _ hb]
      . rfl
  . by_cases ho : (m.overflow ref).isSome
    . have heq : m.erase ref = m.overflowErase ref := by
        simp [OrderMap.erase, hs, ho]
      rw [heq]
      refine ⟨⟨fl, h.withOverflow rfl rfl rfl rfl rfl rfl ?_⟩, rfl, ?_, ?_⟩
      . intro r hr
        by_cases hrr : r = ref
        . simp [overflowErase, hrr]
        . simpa [overflowErase, hrr] using h.overflow r hr
      . rw [entries_of_treeified (m := m.overflowErase ref) hs, entries_of_treeified hs]
        cases m.overflow ref with
        | none => simp [overflowErase]
        | some s => simp [overflowErase]
      . intro r hr
        apply entries_congr m (m.overflowErase ref) rfl rfl rfl
        . simp [overflowErase, hr]
        . exact fun _ _ => ⟨rfl, rfl⟩
    . have heq : m.erase ref = m := by
        simp [OrderMap.erase, hs, ho]
      rw [heq]
      refine ⟨⟨fl, h⟩, rfl, ?_, fun _ _ => rfl⟩
      simp at ho
      simp [entries, hs, ho]

theorem Wf.erase_size {m : OrderMap} {fl : List Nat} (h : m.Wf fl) (ref : Nat)
    : (m.erase ref).size = if m.entries ref = [] then m.size else m.size - 1 := by
  by_cases hs : m.state (m.hash ref) = .chain
  . have he := h.eraseLoop_none (m.hash ref) ref
    have heq : m.erase ref = m.eraseLoop (m.hash ref) ref (m.capacity + 1) none := by
      simp [OrderMap.erase, hs]
    rw [heq, he.size]
    unfold entries
    rw [if_pos hs]
    cases hany : (m.chain (m.hash ref)).any (fun i => (m.nodes i).orderRef = ref) with
    | false =>
      have hnil : (m.chain (m.hash ref)).filter (fun i => (m.nodes i).orderRef = ref) = [] := by
        rw [List.filter_eq_nil_iff]
        intro i hi
        exact (List.any_eq_false.1 hany) i hi
      rw [hnil]
      rfl
    | true =>
      rw [if_pos rfl, if_neg]
      intro hnil
      rw [List.map_eq_nil_iff, List.filter_eq_nil_iff] at hnil
      cases List.any_eq_true.1 hany with
      | intro i hi => exact hnil i hi.1 hi.2
  . rw [entries_of_treeified hs]
    cases ho : m.overflow ref with
    | none => simp [OrderMap.erase, hs, ho]
    | some order => simp [OrderMap.erase, hs, ho, overflowErase]

section Insert

variable {m : OrderMap} {fl : List Nat} {b ref order : Nat}

theorem foldl_update_eq (f g : Nat → Nat) (l : List Nat) (ov : Nat → Option Nat) (r : Nat)
    : l.foldl (fun ov i => Function.update ov (f i) (some (g i))) ov r =
      (((l.filter (fun i => f i = r)).map g).getLast?).or (ov r) := by
  induction l generalizing ov with
  | nil => simp
  | cons x l ih =>
    rw [List.foldl_cons, ih]
    by_cases hx : f x = r
    . subst hx
      simp only [Function.update_self, decide_true, List.filter_cons_of_pos, List.map_cons,
        List.getLast?_cons]
      cases ((l.filter (fun i => f i = f x)).map g).getLast? with
      | none => rfl
      | some a => rfl
    . simp [hx, Function.update_of_ne (Ne.symm hx)]

theorem treeify_overflow (hs : m.state b = .chain) (r : Nat)
    : (m.treeify b).overflow r =
      ((((m.chain b).filter (fun i => (m.nodes i).orderRef = r)).map
        (fun i => (m.nodes i).order)).getLast?).or (m.overflow r) := by
  rw [← foldl_update_eq]
  simp [OrderMap.treeify, hs]

theorem Wf.filter_of_hash_ne (h : m.Wf fl) {r : Nat} (hr : m.hash r ≠ b)
    : (m.chain b).filter (fun i => (m.nodes i).orderRef = r) = [] := by
  rw [List.filter_eq_nil_iff]
  intro i hi
  have := h.hashed b i hi
  simp only [decide_eq_true_eq]
  rintro rfl
  exact hr this

theorem treeify_chain : (m.treeify b).chain = m.chain := by
  unfold OrderMap.treeify
  split
  . rfl
  . rfl

theorem treeify_nodes : (m.treeify b).nodes = m.nodes := by
  unfold OrderMap.treeify
  split
  . rfl
  . rfl

theorem treeify_capacity : (m.treeify b).capacity = m.capacity := by
  unfold OrderMap.treeify
  split
  . rfl
  . rfl

theorem treeify_state (b' : Nat)
    : (m.treeify b).state b' = .chain ↔ m.state b' = .chain ∧ b' ≠ b := by
  unfold OrderMap.treeify
  by_cases hb : b' = b
  . subst hb
    split
    . simp
    . next hs => simpa using hs
  . split
    . simp [hb]
    . simp [hb]

theorem Wf.treeify (h : m.Wf fl) (b : Nat) : (m.treeify b).Wf fl := by
  by_cases hs : m.state b = .chain
  . refine h.withOverflow treeify_capacity treeify_nodes ?_ ?_ ?_ treeify_chain ?_
    . simp [OrderMap.treeify, hs]
    . simp [OrderMap.treeify, hs]
    . funext i
      simp [next, treeify_nodes]
    . intro r hr
      rw [treeify_state] at hr
      rw [treeify_overflow hs, h.filter_of_hash_ne hr.2, h.overflow r hr.1]
      rfl
  . have : m.treeify b = m := by simp [OrderMap.treeify, hs]
    rw [this]
    exact h

theorem Wf.treeify_entries (h : m.Wf fl) (hs : m.state b = .chain) (r : Nat)
    : (m.treeify b).entries r =
      if m.hash r = b then (m.entries r).getLast?.toList else m.entries r := by
  unfold entries
  rw [hash_congr treeify_capacity, treeify_overflow hs]
  simp only [treeify_state, treeify_chain, treeify_nodes]
  by_cases hr : m.hash r = b
  . subst hr
    have ho := h.overflow r hs
    simp [hs, ho]
  . rw [h.filter_of_hash_ne hr]
    simp [hr]

/--
The insert finds neither a treeified bucket nor a free node, and drops the reference silently.
-/
def Drops (m : OrderMap) (ref : Nat) : Prop :=
  m.state (m.hash ref) = .chain ∧ m.bucketLen (m.hash ref) < TREEIFY_THRESHOLD ∧
    m.freeHead ≠ ⟨0, noIdx⟩ ∧ m.freeHead.idx = noIdx

instance (ref : Nat) : Decidable (m.Drops ref) := inferInstanceAs (Decidable (_ ∧ _ ∧ _ ∧ _))

theorem Wf.overflowInsert (h : m.Wf fl) (order : Nat) (hs : ¬ m.state (m.hash ref) = .chain)
    : (m.overflowInsert ref order).Wf fl ∧ (m.overflowInsert ref order).entries ref = [order] ∧
      ∀ r, r ≠ ref → (m.overflowInsert ref order).entries r = m.entries r := by
  refine ⟨h.withOverflow rfl rfl rfl rfl rfl rfl ?_, ?_, ?_⟩
  . intro r hr
    have hne : r ≠ ref := by
      rintro rfl
      exact hs hr
    simpa [OrderMap.overflowInsert, hne] using h.overflow r hr
  . rw [entries_of_treeified (m := m.overflowInsert ref order) hs]
    simp [OrderMap.overflowInsert]
  . intro r hr
    apply entries_congr m (m.overflowInsert ref order) rfl rfl rfl
    . simp [OrderMap.overflowInsert, hr]
    . exact fun _ _ => ⟨rfl, rfl⟩

theorem Wf.linkNode_entries (h : m.Wf (b :: fl)) (order : Nat) (hs : m.state (m.hash ref) = .chain)
    : ((m.takeNode b).linkNode (m.hash ref) b ref order).entries ref = order :: m.entries ref ∧
      ∀ r, r ≠ ref →
        ((m.takeNode b).linkNode (m.hash ref) b ref order).entries r = m.entries r := by
  obtain ⟨_, hchain⟩ := h.linkNode ref order
  have hnew : ((m.takeNode b).linkNode (m.hash ref) b ref order).nodes =
      Function.update m.nodes b
        { orderRef := ref, order := order, nextIdx := m.buckets (m.hash ref), bucket := m.hash ref } :=
    rfl
  have hst : ((m.takeNode b).linkNode (m.hash ref) b ref order).state = m.state := rfl
  have hhash : ((m.takeNode b).linkNode (m.hash ref) b ref order).hash = m.hash := hash_congr rfl
  -- the nodes that were on a chain before are not written
  have hold : ∀ b', ∀ i ∈ m.chain b', Function.update m.nodes b
      { orderRef := ref, order := order, nextIdx := m.buckets (m.hash ref), bucket := m.hash ref } i
        = m.nodes i := by
    intro b' i hi
    have : i ≠ b := by
      rintro rfl
      exact h.fresh b' i hi (by simp)
    simp [this]
  have hfilter : ∀ b' r, (m.chain b').filter (fun i => (Function.update m.nodes b
      { orderRef := ref, order := order, nextIdx := m.buckets (m.hash ref), bucket := m.hash ref }
        i).orderRef = r) = (m.chain b').filter (fun i => (m.nodes i).orderRef = r) := by
    intro b' r
    apply List.filter_congr
    intro i hi
    rw [hold b' i hi]
  have hmap : ∀ b' r, ((m.chain b').filter (fun i => (m.nodes i).orderRef = r)).map
      (fun i => (Function.update m.nodes b
        { orderRef := ref, order := order, nextIdx := m.buckets (m.hash ref), bucket := m.hash ref }
          i).order) =
      ((m.chain b').filter (fun i => (m.nodes i).orderRef = r)).map (fun i => (m.nodes i).order) := by
    intro b' r
    apply List.map_congr_left
    intro i hi
    rw [hold b' i (List.mem_of_mem_filter hi)]
  constructor
  . unfold entries
    rw [hhash, hst, if_pos hs, if_pos hs, hchain, if_pos rfl, hnew]
    simp [hfilter, hmap]
  . intro r hr
    unfold entries
    rw [hhash, hst, hchain, hnew]
    split
    . split
      . simp [hfilter, hmap, Ne.symm hr]
      . simp [hfilter, hmap]
    . rfl

theorem insert_of_drops (hd : m.Drops ref) : m.insert ref order = m := by
  obtain ⟨hs, hlen, hne, hidx⟩ := hd
  have hlen : ¬ TREEIFY_THRESHOLD ≤ m.bucketLen (m.hash ref) := by omega
  simp [OrderMap.insert, hs, hlen, hne, allocNode, hidx]

theorem treeify_size (b : Nat) : (m.treeify b).size = m.size := by
  unfold OrderMap.treeify
  split
  . rfl
  . rfl

theorem insert_size (hd : ¬ m.Drops ref) : (m.insert ref order).size = m.size + 1 := by
  unfold OrderMap.insert
  dsimp only
  split
  . rfl
  . next hs =>
    split
    . exact congrArg (· + 1) (treeify_size (m.hash ref))
    . next ht =>
      rw [not_or, Nat.not_le] at ht
      have hidx : m.freeHead.idx ≠ noIdx := fun hi => hd ⟨not_not.1 hs, ht.1, ht.2, hi⟩
      rw [allocNode, if_neg hidx]
      dsimp only
      split
      . exact treeify_size _
      . rfl

theorem Wf.insert_entries (h : m.Wf fl) (order : Nat) (hd : ¬ m.Drops ref)
    : (∃ fl', (m.insert ref order).Wf fl') ∧
      ((m.insert ref order).entries ref = [order] ∨
        (m.insert ref order).entries ref = order :: m.entries ref ∨
        (m.insert ref order).entries ref = (order :: m.entries ref).getLast?.toList) ∧
      ∀ r, r ≠ ref → (m.insert ref order).entries r = m.entries r ∨
        (m.insert ref order).entries r = (m.entries r).getLast?.toList := by
  -- What an insert that is not dropped leaves under the references: treeifying a bucket keeps only
  -- the oldest entry of each of its references.
  by_cases hs : m.state (m.hash ref) = .chain
  . by_cases ht : m.bucketLen (m.hash ref) ≥ TREEIFY_THRESHOLD ∨ m.freeHead = ⟨0, noIdx⟩
    . have heq : m.insert ref order = (m.treeify (m.hash ref)).overflowInsert ref order := by
        simp only [OrderMap.insert, hs, ne_eq, not_true_eq_false, if_false, ht, if_true]
      have hhash : (m.treeify (m.hash ref)).hash = m.hash := hash_congr treeify_capacity
      have hs' : ¬ (m.treeify (m.hash ref)).state ((m.treeify (m.hash ref)).hash ref) = .chain := by
        rw [hhash, treeify_state]
        simp
      rw [heq]
      obtain ⟨hwf, hself, hother⟩ := (h.treeify (m.hash ref)).overflowInsert order hs'
      refine ⟨⟨fl, hwf⟩, Or.inl hself, ?_⟩
      intro r hr
      rw [hother r hr, h.treeify_entries hs]
      split
      . exact Or.inr rfl
      . exact Or.inl rfl
    . rw [not_or, Nat.not_le] at ht
      have hidx : m.freeHead.idx ≠ noIdx := fun hi => hd ⟨hs, ht.1, ht.2, hi⟩
      have hlen : ¬ TREEIFY_THRESHOLD ≤ m.bucketLen (m.hash ref) := by omega
      cases fl with
      | nil => exact absurd (Chain.isList_nil.1 h.free) hidx
      | cons i fl =>
        have hi := (Chain.isList_cons.1 h.free).1
        have hine := (Chain.isList_cons.1 h.free).2.1
        obtain ⟨hwf, _⟩ := h.linkNode ref order
        obtain ⟨hself, hother⟩ := h.linkNode_entries order hs
        have heq : m.insert ref order =
            let m' := (m.takeNode i).linkNode (m.hash ref) i ref order
            if m'.bucketLen (m.hash ref) ≥ TREEIFY_THRESHOLD then m'.treeify (m.hash ref) else m' := by
          simp [OrderMap.insert, hs, hlen, ht.2, allocNode, hi, hine]
        rw [heq]
        have hhash : ((m.takeNode i).linkNode (m.hash ref) i ref order).hash = m.hash :=
          hash_congr rfl
        have hst : ((m.takeNode i).linkNode (m.hash ref) i ref order).state (m.hash ref) = .chain := hs
        generalize (m.takeNode i).linkNode (m.hash ref) i ref order = m' at *
        simp only
        split
        . refine ⟨⟨fl, hwf.treeify _⟩, ?_, ?_⟩
          . rw [hwf.treeify_entries hst, hself, hhash, if_pos rfl]
            exact Or.inr (Or.inr rfl)
          . intro r hr
            rw [hwf.treeify_entries hst, hother r hr]
            split
            . exact Or.inr rfl
            . exact Or.inl rfl
        . exact ⟨⟨fl, hwf⟩, Or.inr (Or.inl hself), fun r hr => Or.inl (hother r hr)⟩
  . have heq : m.insert ref order = m.overflowInsert ref order := by
      simp [OrderMap.insert, hs]
    rw [heq]
    obtain ⟨hwf, hself, hother⟩ := h.overflowInsert order hs
    exact ⟨⟨fl, hwf⟩, Or.inl hself, fun r hr => Or.inl (hother r hr)⟩

theorem Wf.insert (h : m.Wf fl) (order : Nat) (hd : ¬ m.Drops ref) (hnew : m.entries ref = [])
    (hone : ∀ r, (m.entries r).length ≤ 1)
    : (∃ fl', (m.insert ref order).Wf fl') ∧ (m.insert ref order).entries ref = [order] ∧
      ∀ r, r ≠ ref → (m.insert ref order).entries r = m.entries r := by
  have hlast : ∀ l : List Nat, l.length ≤ 1 → l.getLast?.toList = l := by
    intro l hl
    match l with
    | [] => rfl
    | [_] => rfl
  obtain ⟨hwf, hself, hother⟩ := h.insert_entries order hd
  rw [hnew] at hself
  refine ⟨hwf, ?_, ?_⟩
  . simpa using hself
  . intro r hr
    have hr' := hother r hr
    rw [hlast _ (hone r), or_self] at hr'
    exact hr'

theorem Wf.mem_insert (h : m.Wf fl) (order : Nat)
    : (∃ fl', (m.insert ref order).Wf fl') ∧
      ∀ r, ∀ s ∈ (m.insert ref order).entries r, s = order ∨ s ∈ m.entries r := by
  by_cases hd : m.Drops ref
  . rw [insert_of_drops hd]
    exact ⟨⟨fl, h⟩, fun r s hs => Or.inr hs⟩
  . have hlast : ∀ (l : List Nat) (s : Nat), s ∈ l.getLast?.toList → s ∈ l := by
      intro l s hs
      exact List.mem_of_mem_getLast? (Option.mem_toList.1 hs)
    obtain ⟨hwf, hself, hother⟩ := h.insert_entries order hd
    refine ⟨hwf, ?_⟩
    intro r s hs
    by_cases hr : r = ref
    . subst hr
      rcases hself with he | he | he
      . rw [he] at hs
        exact Or.inl (List.mem_singleton.1 hs)
      . rw [he] at hs
        exact List.mem_cons.1 hs
      . rw [he] at hs
        exact List.mem_cons.1 (hlast _ _ hs)
    . rcases hother r hr with he | he
      . rw [he] at hs
        exact Or.inr hs
      . rw [he] at hs
        exact Or.inr (hlast _ _ hs)

end Insert

end OrderMap

end NebulaXTrader
