import NebulaXTrader.Book.Lemmas.SharedMap
import NebulaXTrader.Lib.Tally

/-!
This module contains the lemmas that say which moves of a single thread keep the invariant of the shared map.
-/

namespace NebulaXTrader

namespace SharedMap

variable {T : Type} [Fintype T] {owner : Nat → T} {s s' : SharedMap T} {fl fl' : List Nat}
  {ch ch' : Nat → List Nat} {own own' : Nat → Place T} {t : T} {pc pc' : Pc} {ref : Nat}

structure Inv (owner : Nat → T) (fl : List Nat) (ch : Nat → List Nat) (own : Nat → Place T)
    (s : SharedMap T) : Prop where
  layout : Layout s.map fl ch
  free : ∀ i, i ∈ fl ↔ i < s.map.capacity ∧ own i = .free
  chain : ∀ b i, i ∈ ch b ↔ i < s.map.capacity ∧ own i = .chain b
  slot : ∀ t i, (s.threads t).role.slot = some i ↔ i < s.map.capacity ∧ own i = .thread t
  tag : s.map.freeHead.tag = s.exchanges % 2 ^ 32
  owned : ∀ t ref, (s.threads t).key = some ref → owner ref = t
  stored : ∀ ref, Stored s.map ch ref (s.view owner ref)
  knows : ∀ t, (s.threads t).Knows s ch
  alone : ∀ t t' ref ref', (s.threads t).Migrates ref → (s.threads t').Migrates ref' →
    s.map.hash ref = s.map.hash ref' → t = t'
  size : (s.map.size + ∑ t, (s.threads t).role.pending) % 2 ^ 64 = s.live.keys.card % 2 ^ 64
  sizeLt : s.map.size < 2 ^ 64
  card : s.live.keys.card ≤ s.map.capacity

section

variable [DecidableEq T]

theorem key_eq {r : Nat} (hkey : pc.key = some ref ∨ pc = .idle) (hr : pc.key = some r) : r = ref := by
  cases hkey with
  | inl hk =>
    rw [hk] at hr
    exact (Option.some.inj hr).symm
  | inr hk =>
    rw [hk] at hr
    cases hr

theorem hides_iff (hkey : pc.key = some ref ∨ pc = .idle) : pc.Hides ref ↔ pc.role.hidden = true := by
  unfold Pc.Hides
  cases hkey with
  | inl hk => rw [hk, eq_self, true_and]
  | inr hk =>
    rw [hk]
    constructor
    . exact fun hh => hh.2
    . intro hh
      cases hh

omit [Fintype T] in
theorem view_of_ne {r : Nat} (hpc : s.threads t = pc) (hthreads : s'.threads = Function.update s.threads t pc')
    (hkey : pc.key = some ref ∨ pc = .idle) (hkey' : pc'.key = some ref ∨ pc' = .idle) (hr : r ≠ ref)
    (hlive : s'.live.lookup r = s.live.lookup r) : s'.view owner r = s.view owner r := by
  have hhides : (s'.threads (owner r)).Hides r ↔ (s.threads (owner r)).Hides r := by
    by_cases ht : owner r = t
    . rw [ht, hthreads, Function.update_self, hpc]
      constructor
      . intro hh
        exact absurd (key_eq hkey' hh.1) hr
      . intro hh
        exact absurd (key_eq hkey hh.1) hr
    . rw [hthreads, Function.update_of_ne ht]
  unfold view
  rw [hlive]
  simp only [hhides]

theorem Inv.move (h : s.Inv owner fl ch own) (hpc : s.threads t = pc)
    (hthreads : s'.threads = Function.update s.threads t pc') (ht : owner ref = t)
    (hkey : pc.key = some ref ∨ pc = .idle) (hkey' : pc'.key = some ref ∨ pc' = .idle) (hlayout : Layout s'.map fl' ch')
    (hcap : s'.map.capacity = s.map.capacity) (htag : s'.map.freeHead.tag = s'.exchanges % 2 ^ 32)
    (hfree : ∀ i, i ∈ fl' ↔ i < s.map.capacity ∧ own' i = .free)
    (hchain : ∀ b i, i ∈ ch' b ↔ i < s.map.capacity ∧ own' i = .chain b)
    (hslot : ∀ i, pc'.role.slot = some i ↔ i < s.map.capacity ∧ own' i = .thread t)
    (hown : ∀ i t', t' ≠ t → (own' i = .thread t' ↔ own i = .thread t'))
    (hnodes : ∀ i t', t' ≠ t → own i = .thread t' → s'.map.nodes i = s.map.nodes i)
    (hkeeps : ∀ r, r ≠ ref → Keeps s.map s'.map ch ch' r)
    (hlive : ∀ r, r ≠ ref → s'.live.lookup r = s.live.lookup r)
    (hstored : ∀ r o, r ≠ ref → Stored s.map ch r o → Stored s'.map ch' r o)
    (hself : Stored s'.map ch' ref (if pc'.role.hidden = true then none else s'.live.lookup ref))
    (htrusts : Trusts s s')
    (hmigrates : ∀ t' r, t' ≠ t → (s.threads t').Migrates r →
      s.map.state (s.map.hash r) = .treeifying → s'.map.state (s.map.hash r) = .treeifying)
    (halone : pc'.role.migrating = true → ∀ t' r, t' ≠ t → (s.threads t').Migrates r →
      s.map.hash r ≠ s.map.hash ref)
    (hknows : pc'.Knows s' ch')
    (hsize : ∀ n, (s.map.size + (n + pc.role.pending)) % 2 ^ 64 = s.live.keys.card % 2 ^ 64 →
      (s'.map.size + (n + pc'.role.pending)) % 2 ^ 64 = s'.live.keys.card % 2 ^ 64)
    (hsizeLt : s'.map.size < 2 ^ 64) (hcard : s'.live.keys.card ≤ s.map.capacity)
    : s'.Inv owner fl' ch' own' := by
  have hkeyOf' : ∀ r, pc'.key = some r → r = ref := fun r hr => key_eq hkey' hr
  have hself' : s'.threads t = pc' := by
    rw [hthreads, Function.update_self]
  have hother : ∀ t', t' ≠ t → s'.threads t' = s.threads t' := by
    intro t' ht'
    rw [hthreads, Function.update_of_ne ht']
  have hhash : s'.map.hash = s.map.hash := OrderMap.hash_congr hcap
  have hne : ∀ t' r, t' ≠ t → (s.threads t').key = some r → r ≠ ref := by
    intro t' r ht' hr heq
    rw [heq] at hr
    exact ht' ((h.owned t' ref hr).symm.trans ht)
  constructor
  . exact hlayout
  . rw [hcap]
    exact hfree
  . rw [hcap]
    exact hchain
  . intro t' i
    rw [hcap]
    by_cases ht' : t' = t
    . rw [ht', hself']
      exact hslot i
    . rw [hother t' ht', hown i t' ht']
      exact h.slot t' i
  . exact htag
  . intro t' r hr
    by_cases ht' : t' = t
    . rw [ht', hself'] at hr
      rw [hkeyOf' r hr, ht, ht']
    . rw [hother t' ht'] at hr
      exact h.owned t' r hr
  . intro r
    by_cases hr : r = ref
    . unfold view
      have hhides : pc'.Hides ref ↔ pc'.role.hidden = true := hides_iff hkey'
      rw [hr, ht, hself']
      simp only [hhides]
      exact hself
    . rw [view_of_ne hpc hthreads hkey hkey' hr (hlive r hr)]
      exact hstored r (s.view owner r) hr (h.stored r)
  . intro t'
    by_cases ht' : t' = t
    . rw [ht', hself']
      exact hknows
    . rw [hother t' ht']
      apply (h.knows t').frame
      . intro r hr
        have hr := hne t' r ht' hr
        exact ⟨hkeeps r hr, hlive r hr⟩
      . intro i hi
        exact hnodes i t' ht' ((h.slot t' i).1 hi).2
      . exact htrusts
      . intro r hr
        exact hmigrates t' r ht' hr
  . intro t₁ t₂ r₁ r₂ h₁ h₂ heq
    rw [hhash] at heq
    by_cases ht₁ : t₁ = t
    . by_cases ht₂ : t₂ = t
      . rw [ht₁, ht₂]
      . rw [ht₁, hself'] at h₁
        rw [hother t₂ ht₂] at h₂
        rw [hkeyOf' r₁ h₁.1] at heq
        exact absurd heq.symm (halone h₁.2 t₂ r₂ ht₂ h₂)
    . rw [hother t₁ ht₁] at h₁
      by_cases ht₂ : t₂ = t
      . rw [ht₂, hself'] at h₂
        rw [hkeyOf' r₂ h₂.1] at heq
        exact absurd heq (halone h₂.2 t₁ r₁ ht₁ h₁)
      . rw [hother t₂ ht₂] at h₂
        exact h.alone t₁ t₂ r₁ r₂ h₁ h₂ heq
  . cases Tally.sum_update (fun pc => pc.role.pending) s.threads t pc' with
    | intro n hn =>
      rw [hpc] at hn
      rw [hthreads, hn.2]
      apply hsize n
      rw [← hn.1]
      exact h.size
  . exact hsizeLt
  . rw [hcap]
    exact hcard

end

/-!
Steps that change no chain and no link of the free list.
-/

theorem Keeps.of_chains {m m' : OrderMap} (hcap : m'.capacity = m.capacity)
    (hnodes : ∀ i ∈ ch (m.hash ref), m'.nodes i = m.nodes i)
    (hother : ∀ i, (m.nodes i).orderRef ≠ ref → (m'.nodes i).orderRef ≠ ref)
    (hchain : m.state (m.hash ref) ≠ .chain → m'.state (m.hash ref) ≠ .chain)
    : Keeps m m' ch ch ref := by
  have hhash : m'.hash = m.hash := OrderMap.hash_congr hcap
  constructor
  . rw [hhash]
  . intro i
    unfold Has
    rw [hhash]
    constructor
    . intro hi
      rw [hnodes i hi.1] at hi
      exact hi
    . intro hi
      rw [hnodes i hi.1]
      exact hi
  . intro i hi
    rw [hnodes i hi.1]
  . intro idx hpassed
    unfold Passed at hpassed ⊢
    rw [hhash]
    apply hpassed.mono
    intro i hi heq
    rw [hnodes i hi] at heq
    exact heq
  . exact hother
  . exact hchain

theorem Layout.of_chains {m m' : OrderMap} (h : Layout m fl ch) (hcap : m'.capacity = m.capacity)
    (hfreeHead : m'.freeHead = m.freeHead) (hbuckets : m'.buckets = m.buckets)
    (hfree : ∀ i ∈ fl, m'.nodes i = m.nodes i) (hchain : ∀ b, ∀ i ∈ ch b, m'.nodes i = m.nodes i)
    : Layout m' fl ch := by
  have hhash : m'.hash = m.hash := OrderMap.hash_congr hcap
  constructor
  . rw [hcap]
    exact h.cap
  . rw [hfreeHead]
    apply h.free.congr
    intro i hi
    unfold OrderMap.next
    rw [hfree i hi]
  . intro b
    rw [hbuckets]
    apply (h.chains b).congr
    intro i hi
    unfold OrderMap.next
    rw [hchain b i hi]
  . intro b i hi
    rw [hchain b i hi]
    exact h.bucket b i hi
  . intro b i hi
    rw [hhash, hchain b i hi]
    exact h.hashed b i hi
  . intro b i hi j hj heq
    rw [hchain b i hi, hchain b j hj] at heq
    exact h.distinct b i hi j hj heq

theorem Layout.head_mem {m : OrderMap} (h : Layout m fl ch) (hne : m.freeHead.idx ≠ noIdx)
    : m.freeHead.idx ∈ fl := by
  have hlist := h.free
  cases fl with
  | nil => exact absurd (Chain.isList_nil.1 hlist) hne
  | cons i fl =>
    rw [(Chain.isList_cons.1 hlist).1]
    exact List.mem_cons_self

/--
A step on the reference `ref` that writes to no node but those in `mine`.
-/
structure Local (s s' : SharedMap T) (mine : Nat → Prop) (ref : Nat) : Prop where
  capacity : s'.map.capacity = s.map.capacity
  buckets : s'.map.buckets = s.map.buckets
  freeHead : s'.map.freeHead = s.map.freeHead
  state : s'.map.state = s.map.state
  exchanges : s'.exchanges = s.exchanges
  nodes : ∀ i, ¬ mine i → s'.map.nodes i = s.map.nodes i
  orderRef : ∀ i, (s'.map.nodes i).orderRef = (s.map.nodes i).orderRef ∨ (s'.map.nodes i).orderRef = ref
  overflow : ∀ r, r ≠ ref → s'.map.overflow r = s.map.overflow r
  live : ∀ r, r ≠ ref → s'.live.lookup r = s.live.lookup r

theorem Inv.nodes_of_mem (h : s.Inv owner fl ch own) {mine : Nat → Prop} (hlocal : Local s s' mine ref)
    (hmine : ∀ i, mine i → own i = .thread t) {i : Nat} (hi : i ∈ fl ∨ ∃ b, i ∈ ch b)
    : s'.map.nodes i = s.map.nodes i := by
  apply hlocal.nodes
  intro hm
  have hthread := hmine i hm
  cases hi with
  | inl hi =>
    rw [((h.free i).1 hi).2] at hthread
    cases hthread
  | inr hex =>
    cases hex with
    | intro b hi =>
      rw [((h.chain b i).1 hi).2] at hthread
      cases hthread

theorem Inv.owner_eq (h : s.Inv owner fl ch own) (hpc : s.threads t = pc) (hkey : pc.key = some ref)
    : owner ref = t := by
  apply h.owned t
  rw [hpc]
  exact hkey

theorem Inv.stored_self (h : s.Inv owner fl ch own) (hpc : s.threads t = pc) (hkey : pc.key = some ref)
    : Stored s.map ch ref (if pc.role.hidden = true then none else s.live.lookup ref) := by
  have hstored := h.stored ref
  unfold view at hstored
  rw [h.owner_eq hpc hkey, hpc] at hstored
  simp only [hides_iff (Or.inl hkey)] at hstored
  exact hstored

theorem Inv.state_of_migrates (h : s.Inv owner fl ch own) {r : Nat} (hm : (s.threads t).Migrates r)
    : s.map.state (s.map.hash r) = .treeifying := by
  have hknows := h.knows t
  unfold Pc.Migrates at hm
  cases hpc : s.threads t with
  | insert ref order pc =>
    rw [hpc] at hm hknows
    cases hm.1
    cases pc with
    | migrate linked => exact hknows.2
    | _ => cases hm.2
  | erase ref pc =>
    rw [hpc] at hm
    cases pc with
    | _ => cases hm.2
  | _ =>
    rw [hpc] at hm
    cases hm.2

theorem Inv.view_idle (h : s.Inv owner fl ch own) (hpc : s.threads t = .idle) (ht : owner ref = t)
    : Stored s.map ch ref (s.live.lookup ref) := by
  have hstored := h.stored ref
  unfold view at hstored
  rw [ht, hpc, if_neg (fun hhides => nomatch hhides.1)] at hstored
  exact hstored

variable [DecidableEq T]

theorem Inv.step_local (h : s.Inv owner fl ch own) {mine : Nat → Prop}
    (hlocal : Local s s' mine ref) (hmine : ∀ i, mine i → own i = .thread t)
    (hpc : s.threads t = pc) (hthreads : s'.threads = Function.update s.threads t pc')
    (ht : owner ref = t) (hkey : pc.key = some ref ∨ pc = .idle)
    (hkey' : pc'.key = some ref ∨ pc' = .idle) (hslot : pc'.role.slot = pc.role.slot)
    (hmigrating : pc'.role.migrating = false)
    (hself : Stored s'.map ch ref (if pc'.role.hidden = true then none else s'.live.lookup ref))
    (hknows : pc'.Knows s' ch)
    (hsize : ∀ n, (s.map.size + (n + pc.role.pending)) % 2 ^ 64 = s.live.keys.card % 2 ^ 64 →
      (s'.map.size + (n + pc'.role.pending)) % 2 ^ 64 = s'.live.keys.card % 2 ^ 64)
    (hsizeLt : s'.map.size < 2 ^ 64) (hcard : s'.live.keys.card ≤ s.map.capacity)
    : s'.Inv owner fl ch own := by
  have hkept : ∀ i, i ∈ fl ∨ (∃ b, i ∈ ch b) → s'.map.nodes i = s.map.nodes i :=
    fun i hi => h.nodes_of_mem hlocal hmine hi
  have hkeeps : ∀ r, r ≠ ref → Keeps s.map s'.map ch ch r := by
    intro r hr
    apply Keeps.of_chains hlocal.capacity
    . intro i hi
      exact hkept i (Or.inr ⟨_, hi⟩)
    . intro i hi heq
      cases hlocal.orderRef i with
      | inl hsame =>
        rw [hsame] at heq
        exact hi heq
      | inr hsame =>
        rw [hsame] at heq
        exact hr heq.symm
    . rw [hlocal.state]
      exact id
  apply h.move hpc hthreads ht hkey hkey'
  . apply h.layout.of_chains hlocal.capacity hlocal.freeHead hlocal.buckets
    . intro i hi
      exact hkept i (Or.inl hi)
    . intro b i hi
      exact hkept i (Or.inr ⟨b, hi⟩)
  . exact hlocal.capacity
  . rw [hlocal.freeHead, hlocal.exchanges]
    exact h.tag
  . exact h.free
  . exact h.chain
  . intro i
    rw [hslot, ← hpc]
    exact h.slot t i
  . intro i t' _
    rfl
  . intro i t' ht' hi
    apply hlocal.nodes
    intro hm
    rw [hmine i hm] at hi
    cases hi
    exact ht' rfl
  . exact hkeeps
  . exact hlocal.live
  . intro r o hr hs
    apply (hkeeps r hr).stored (hlocal.overflow r hr) _ hs
    rw [hlocal.state]
  . exact hself
  . apply Or.inl
    refine ⟨hlocal.exchanges, hlocal.freeHead, ?_⟩
    intro hne
    unfold OrderMap.next
    rw [hkept _ (Or.inl (h.layout.head_mem hne))]
  . intro t' r _ _ hstate
    rw [hlocal.state]
    exact hstate
  . intro hm
    rw [hmigrating] at hm
    cases hm
  . exact hknows
  . exact hsize
  . exact hsizeLt
  . exact hcard

theorem Inv.unobserved (h : s.Inv owner fl ch own) (hlocal : Local s s' (fun _ => False) ref)
    (hoverflow : s'.map.overflow = s.map.overflow) (hlive : s'.live = s.live)
    (hsize : s'.map.size = s.map.size) (hpc : s.threads t = pc)
    (hthreads : s'.threads = Function.update s.threads t pc') (hkey : pc.key = some ref)
    (hkey' : pc'.key = some ref ∨ pc' = .idle) (hrole : pc'.role = pc.role)
    (hmigrating : pc.role.migrating = false) (hknows : pc'.Knows s' ch) : s'.Inv owner fl ch own := by
  apply h.step_local hlocal (fun _ hmine => hmine.elim) hpc hthreads (h.owner_eq hpc hkey) (Or.inl hkey)
    hkey'
  . rw [hrole]
  . rw [hrole]
    exact hmigrating
  . rw [hrole, hlive]
    have hhash : s'.map.hash ref = s.map.hash ref := congrFun (OrderMap.hash_congr hlocal.capacity) ref
    apply (h.stored_self hpc hkey).of_chained hhash
    . intro o hchained
      exact hchained.of_nodes hhash (fun i _ => hlocal.nodes i id)
    . rw [hoverflow]
    . rw [hlocal.state]
    . rw [hlocal.state]
      exact id
  . exact hknows
  . intro n hn
    rw [hrole, hsize, hlive]
    exact hn
  . rw [hsize]
    exact h.sizeLt
  . rw [hlive]
    exact h.card

theorem Inv.setPc (h : s.Inv owner fl ch own) (hpc : s.threads t = pc) (hkey : pc.key = some ref)
    (hkey' : pc'.key = some ref ∨ pc' = .idle) (hrole : pc'.role = pc.role)
    (hmigrating : pc.role.migrating = false) (hknows : pc'.Knows s ch)
    : (s.setPc t pc').Inv owner fl ch own := by
  have hlocal : Local s (s.setPc t pc') (fun _ => False) ref :=
    ⟨rfl, rfl, rfl, rfl, rfl, fun _ _ => rfl, fun _ => Or.inl rfl, fun _ _ => rfl, fun _ _ => rfl⟩
  exact h.unobserved hlocal rfl rfl rfl hpc rfl hkey hkey' hrole hmigrating (hknows.of_eq rfl rfl rfl)

theorem Inv.setLen (h : s.Inv owner fl ch own) (hpc : s.threads t = pc) (hkey : pc.key = some ref)
    (hkey' : pc'.key = some ref ∨ pc' = .idle) (hrole : pc'.role = pc.role)
    (hmigrating : pc.role.migrating = false) (b len : Nat)
    (hknows : pc'.Knows (s.setMap (s.map.setLen b len)) ch)
    : ((s.setMap (s.map.setLen b len)).setPc t pc').Inv owner fl ch own := by
  have hlocal : Local s ((s.setMap (s.map.setLen b len)).setPc t pc') (fun _ => False) ref :=
    ⟨rfl, rfl, rfl, rfl, rfl, fun _ _ => rfl, fun _ => Or.inl rfl, fun _ _ => rfl, fun _ _ => rfl⟩
  exact h.unobserved hlocal rfl rfl rfl hpc rfl hkey hkey' hrole hmigrating (hknows.of_eq rfl rfl rfl)

theorem Inv.store (h : s.Inv owner fl ch own) (hpc : s.threads t = pc) (hkey : pc.key = some ref)
    (hkey' : pc'.key = some ref) (hrole : pc'.role = pc.role) (hmigrating : pc.role.migrating = false)
    {idx : Nat} (hslot : pc.role.slot = some idx) (f : OrderMap.Node → OrderMap.Node)
    (hf : ∀ node, (f node).orderRef = node.orderRef ∨ (f node).orderRef = ref)
    (hknows : pc'.Knows (s.setMap (s.map.modify idx f)) ch)
    : ((s.setMap (s.map.modify idx f)).setPc t pc').Inv owner fl ch own := by
  -- A step that writes to the node in the hands of the thread.
  have hidx : own idx = .thread t := by
    have hs := h.slot t idx
    rw [hpc] at hs
    exact (hs.1 hslot).2
  have hlocal : Local s ((s.setMap (s.map.modify idx f)).setPc t pc') (fun i => i = idx) ref := by
    refine ⟨rfl, rfl, rfl, rfl, rfl, ?_, ?_, fun _ _ => rfl, fun _ _ => rfl⟩
    . intro i hi
      exact Function.update_of_ne hi _ _
    . intro i
      show (Function.update s.map.nodes idx (f (s.map.nodes idx)) i).orderRef = _ ∨
        (Function.update s.map.nodes idx (f (s.map.nodes idx)) i).orderRef = _
      by_cases hi : i = idx
      . rw [hi, Function.update_self]
        exact hf _
      . rw [Function.update_of_ne hi]
        exact Or.inl rfl
  have hmine : ∀ i, i = idx → own i = .thread t := by
    intro i hi
    rw [hi]
    exact hidx
  apply h.step_local hlocal hmine hpc rfl (h.owner_eq hpc hkey) (Or.inl hkey) (Or.inl hkey')
  . rw [hrole]
  . rw [hrole]
    exact hmigrating
  . rw [hrole]
    have hhash : (s.map.modify idx f).hash ref = s.map.hash ref :=
      congrFun (OrderMap.hash_congr rfl) ref
    apply (h.stored_self hpc hkey).of_chained hhash _ rfl Iff.rfl id
    intro o hchained
    apply hchained.of_nodes hhash
    intro i hi
    exact h.nodes_of_mem hlocal hmine (Or.inr ⟨_, hi⟩)
  . exact hknows.of_eq rfl rfl rfl
  . intro n hn
    rw [hrole]
    exact hn
  . exact h.sizeLt
  . exact h.card

/-!
Steps that carry a node from one place to another.
-/

structure Carries (s s' : SharedMap T) : Prop where
  capacity : s'.map.capacity = s.map.capacity
  state : s'.map.state = s.map.state
  overflow : s'.map.overflow = s.map.overflow
  size : s'.map.size = s.map.size
  live : s'.live = s.live

theorem Inv.carry (h : s.Inv owner fl ch own) (hcarries : Carries s s') (hpc : s.threads t = pc)
    (hthreads : s'.threads = Function.update s.threads t pc') (hkey : pc.key = some ref)
    (hkey' : pc'.key = some ref) (hpending : pc'.role.pending = pc.role.pending)
    (hmigrating : pc'.role.migrating = false) {idx : Nat} {place : Place T} (hidx : idx < s.map.capacity)
    (hbefore : ∀ t', own idx = .thread t' → t' = t) (hafter : ∀ t', place = .thread t' → t' = t)
    (hfree : ∀ i, i ∈ fl' ↔ if i = idx then place = .free else i ∈ fl)
    (hchain : ∀ b i, i ∈ ch' b ↔ if i = idx then place = .chain b else i ∈ ch b)
    (hslot : ∀ i, pc'.role.slot = some i ↔ if i = idx then place = .thread t else pc.role.slot = some i)
    (hlayout : Layout s'.map fl' ch') (htag : s'.map.freeHead.tag = s'.exchanges % 2 ^ 32)
    (hnodes : ∀ i t', t' ≠ t → own i = .thread t' → s'.map.nodes i = s.map.nodes i)
    (hkeeps : ∀ r, r ≠ ref → Keeps s.map s'.map ch ch' r)
    (hself : Stored s'.map ch' ref (if pc'.role.hidden = true then none else s.live.lookup ref))
    (htrusts : Trusts s s') (hknows : pc'.Knows s' ch')
    : s'.Inv owner fl' ch' (Function.update own idx place) := by
  apply h.move hpc hthreads (h.owner_eq hpc hkey) (Or.inl hkey) (Or.inl hkey') hlayout
    hcarries.capacity htag
  . intro i
    rw [hfree]
    by_cases hi : i = idx
    . rw [if_pos hi, hi, Function.update_self, and_iff_right hidx]
    . rw [if_neg hi, Function.update_of_ne hi, h.free]
  . intro b i
    rw [hchain]
    by_cases hi : i = idx
    . rw [if_pos hi, hi, Function.update_self, and_iff_right hidx]
    . rw [if_neg hi, Function.update_of_ne hi, h.chain]
  . intro i
    rw [hslot]
    by_cases hi : i = idx
    . rw [if_pos hi, hi, Function.update_self, and_iff_right hidx]
    . rw [if_neg hi, Function.update_of_ne hi, ← h.slot, hpc]
  . intro i t' ht'
    by_cases hi : i = idx
    . rw [hi, Function.update_self]
      constructor
      . intro hp
        exact absurd (hafter t' hp) ht'
      . intro hp
        exact absurd (hbefore t' hp) ht'
    . rw [Function.update_of_ne hi]
  . exact hnodes
  . exact hkeeps
  . intro r _
    rw [hcarries.live]
  . intro r o hr hs
    apply (hkeeps r hr).stored _ _ hs
    . rw [hcarries.overflow]
    . rw [hcarries.state]
  . rw [hcarries.live]
    exact hself
  . exact htrusts
  . intro t' r _ _ hstate
    rw [hcarries.state]
    exact hstate
  . intro hm
    rw [hmigrating] at hm
    cases hm
  . exact hknows
  . intro n hn
    rw [hcarries.size, hcarries.live, hpending]
    exact hn
  . rw [hcarries.size]
    exact h.sizeLt
  . rw [hcarries.live]
    exact h.card

theorem bump_tag {fh : TaggedHead} {exchanges : Nat} (h : fh.tag = exchanges % 2 ^ 32) (idx : Nat)
    : (fh.bump idx).tag = (exchanges + 1) % 2 ^ 32 := by
  show (fh.tag + 1) % 2 ^ 32 = _
  rw [h, Nat.mod_add_mod]

theorem Layout.setFreeHead {m : OrderMap} (h : Layout m fl ch) {fh : TaggedHead}
    (hfree : Chain.IsList m.next noIdx fh.idx fl') : Layout (m.setFreeHead fh) fl' ch := by
  have hhash : (m.setFreeHead fh).hash = m.hash := OrderMap.hash_congr rfl
  refine ⟨h.cap, hfree, h.chains, h.bucket, ?_, h.distinct⟩
  rw [hhash]
  exact h.hashed

theorem Inv.exchange (h : s.Inv owner fl ch own) (hpc : s.threads t = pc) (hkey : pc.key = some ref)
    (hkey' : pc'.key = some ref) (hhidden : pc'.role.hidden = pc.role.hidden)
    (hpending : pc'.role.pending = pc.role.pending) (hmigrating : pc'.role.migrating = false)
    {idx new : Nat} {place : Place T} (hidx : idx < s.map.capacity)
    (hbefore : own idx = .free ∨ own idx = .thread t) (hafter : place = .free ∨ place = .thread t)
    (hfree : ∀ i, i ∈ fl' ↔ if i = idx then place = .free else i ∈ fl)
    (hslot : ∀ i, pc'.role.slot = some i ↔ if i = idx then place = .thread t else pc.role.slot = some i)
    (hlist : Chain.IsList s.map.next noIdx new fl') (hknows : pc'.Knows (s.exchange new) ch)
    : ((s.exchange new).setPc t pc').Inv owner fl' ch (Function.update own idx place) := by
  have hnot : ∀ p : Place T, p = .free ∨ p = .thread t → (∀ b, p ≠ .chain b) ∧ ∀ t', p = .thread t' → t' = t := by
    intro p hp
    cases hp with
    | inl hp =>
      rw [hp]
      constructor
      . intro b hb
        cases hb
      . intro t' ht'
        cases ht'
    | inr hp =>
      rw [hp]
      constructor
      . intro b hb
        cases hb
      . intro t' ht'
        cases ht'
        rfl
  have hkeeps : ∀ r, Keeps s.map (s.exchange new).map ch ch r := by
    intro r
    exact .of_chains rfl (fun _ _ => rfl) (fun _ h => h) id
  have hcarries : Carries s ((s.exchange new).setPc t pc') := ⟨rfl, rfl, rfl, rfl, rfl⟩
  apply h.carry hcarries hpc rfl hkey hkey' hpending hmigrating hidx (hnot _ hbefore).2 (hnot _ hafter).2 hfree
  . intro b i
    by_cases hi : i = idx
    . rw [if_pos hi, hi, h.chain]
      constructor
      . intro hb
        exact absurd hb.2 ((hnot _ hbefore).1 b)
      . intro hb
        exact absurd hb ((hnot _ hafter).1 b)
    . rw [if_neg hi]
  . exact hslot
  . exact h.layout.setFreeHead hlist
  . exact bump_tag h.tag new
  . intro i t' _ _
    rfl
  . intro r _
    exact hkeeps r
  . rw [hhidden]
    exact (hkeeps ref).stored rfl Iff.rfl (h.stored_self hpc hkey)
  . exact Or.inr (Nat.lt_succ_self _)
  . exact hknows.of_eq rfl rfl rfl

theorem Inv.takeHead (h : s.Inv owner fl ch own) {order since next : Nat} {fh : TaggedHead}
    (hpc : s.threads t = .insert ref order (.takeHead fh since next)) (hhead : s.map.freeHead = fh)
    (htimely : s.exchanges < since + 2 ^ 32)
    : ((s.exchange next).setPc t (.insert ref order (.storeRef fh.idx))).Inv owner fl.tail ch
        (Function.update own fh.idx (.thread t)) := by
  have hknows := h.knows t
  rw [hpc] at hknows
  have hknown := hknows.2.1
  have hle := hknown.le
  -- The head is the one that the thread loaded, so by its tag no exchange has succeeded since, and the link
  -- that the thread loaded is still the link of the head.
  have hsince : s.exchanges = since := by
    apply Wrap.eq_of_mod_eq (W := 2 ^ 32) hle
    . omega
    . rw [← h.tag, hhead]
      exact hknown.tag
  have hnext := hknows.2.2 hsince.symm
  cases fl with
  | nil =>
    have hnil := Chain.isList_nil.1 h.layout.free
    rw [hhead] at hnil
    exact absurd hnil hknown.ne
  | cons i fl =>
    have hcons := Chain.isList_cons.1 h.layout.free
    have hi : i = fh.idx := by
      rw [← hcons.1, hhead]
    have hnodup := List.nodup_cons.1 h.layout.free.nodup
    have hplace := (h.free i).1 List.mem_cons_self
    rw [hi] at hplace
    have hkey' : (Pc.insert ref order (.storeRef fh.idx)).key = some ref := rfl
    apply h.exchange hpc rfl hkey' rfl rfl rfl hplace.1 (Or.inl hplace.2) (Or.inr rfl)
    . intro j
      by_cases hj : j = fh.idx
      . rw [if_pos hj, hj, ← hi]
        constructor
        . intro hmem
          exact absurd hmem hnodup.1
        . intro hp
          cases hp
      . rw [if_neg hj, List.tail_cons, List.mem_cons, hi, or_iff_right hj]
    . intro j
      by_cases hj : j = fh.idx
      . rw [if_pos hj, hj]
        exact iff_of_true rfl rfl
      . rw [if_neg hj]
        constructor
        . intro hs
          exact absurd (Option.some.inj hs).symm hj
        . intro hs
          cases hs
    . rw [hnext, ← hi]
      exact hcons.2.2
    . exact ⟨hknows.1, trivial⟩

theorem Inv.pushNode (h : s.Inv owner fl ch own) (hpc : s.threads t = pc) (hkey : pc.key = some ref)
    (hkey' : pc'.key = some ref) {idx : Nat} (hslot : pc.role.slot = some idx)
    (hrole : pc'.role = { pc.role with slot := none }) (hmigrating : pc.role.migrating = false)
    (hlink : s.map.next idx = s.map.freeHead.idx) (hknows : pc'.Knows (s.exchange idx) ch)
    : ((s.exchange idx).setPc t pc').Inv owner (idx :: fl) ch (Function.update own idx .free) := by
  -- The link of the node is the head whatever happened since it was stored.
  have hplace : idx < s.map.capacity ∧ own idx = .thread t := by
    apply (h.slot t idx).1
    rw [hpc]
    exact hslot
  have hcap := h.layout.cap
  apply h.exchange hpc hkey hkey' (by rw [hrole]) (by rw [hrole]) (by rw [hrole]; exact hmigrating)
    hplace.1 (Or.inr hplace.2) (Or.inl rfl)
  . intro j
    by_cases hj : j = idx
    . rw [if_pos hj, hj]
      exact iff_of_true List.mem_cons_self rfl
    . rw [if_neg hj, List.mem_cons, or_iff_right hj]
  . intro j
    rw [hrole, hslot]
    by_cases hj : j = idx
    . rw [if_pos hj]
      constructor
      . intro hs
        cases hs
      . intro hs
        cases hs
    . rw [if_neg hj]
      constructor
      . intro hs
        cases hs
      . intro hs
        exact absurd (Option.some.inj hs).symm hj
  . rw [Chain.isList_cons, hlink]
    exact ⟨rfl, by omega, h.layout.free⟩
  . exact hknows

theorem Layout.link {m : OrderMap} (h : Layout m fl ch) {order idx : Nat}
    (hwritten : Written m ref order idx) (hidx : idx < m.capacity)
    (hlink : m.next idx = m.buckets (m.hash ref)) (hnone : Chained m ch ref none)
    : Layout (m.setBucket (m.hash ref) idx) fl
        (Function.update ch (m.hash ref) (idx :: ch (m.hash ref))) := by
  have hcap := h.cap
  have hhash : (m.setBucket (m.hash ref) idx).hash = m.hash := OrderMap.hash_congr rfl
  have hmem : ∀ b i, i ∈ Function.update ch (m.hash ref) (idx :: ch (m.hash ref)) b →
      i ∈ ch b ∨ (b = m.hash ref ∧ i = idx) := by
    intro b i hi
    by_cases hb : b = m.hash ref
    . rw [hb, Function.update_self, List.mem_cons] at hi
      rw [hb]
      exact hi.symm.imp_right (fun heq => ⟨rfl, heq⟩)
    . rw [Function.update_of_ne hb] at hi
      exact Or.inl hi
  have hdiff : ∀ b i, i ∈ ch b → b = m.hash ref → (m.nodes i).orderRef ≠ (m.nodes idx).orderRef := by
    intro b i hi hb heq
    rw [hwritten.orderRef] at heq
    rw [hb] at hi
    exact hnone i ⟨hi, heq⟩
  constructor
  . exact hcap
  . exact h.free
  . intro b
    show Chain.IsList m.next noIdx (Function.update m.buckets (m.hash ref) idx b) _
    by_cases hb : b = m.hash ref
    . rw [hb, Function.update_self, Function.update_self, Chain.isList_cons, hlink]
      exact ⟨rfl, by omega, h.chains _⟩
    . rw [Function.update_of_ne hb, Function.update_of_ne hb]
      exact h.chains b
  . intro b i hi
    cases hmem b i hi with
    | inl hi => exact h.bucket b i hi
    | inr heq =>
      rw [heq.1, heq.2]
      exact hwritten.bucket
  . intro b i hi
    rw [hhash]
    cases hmem b i hi with
    | inl hi => exact h.hashed b i hi
    | inr heq =>
      rw [heq.1, heq.2]
      exact congrArg m.hash hwritten.orderRef
  . intro b i hi j hj heq
    cases hmem b i hi with
    | inl hi' =>
      cases hmem b j hj with
      | inl hj' => exact h.distinct b i hi' j hj' heq
      | inr hj' =>
        rw [hj'.2] at heq
        exact absurd heq (hdiff b i hi' hj'.1)
    | inr hi' =>
      cases hmem b j hj with
      | inl hj' =>
        rw [hi'.2] at heq
        exact absurd heq.symm (hdiff b j hj' hi'.1)
      | inr hj' => rw [hi'.2, hj'.2]

theorem Keeps.link {m : OrderMap} {order idx r : Nat} (hwritten : Written m ref order idx) (hr : r ≠ ref)
    : Keeps m (m.setBucket (m.hash ref) idx) ch
        (Function.update ch (m.hash ref) (idx :: ch (m.hash ref))) r := by
  have hhash : (m.setBucket (m.hash ref) idx).hash r = m.hash r := congrFun (OrderMap.hash_congr rfl) r
  have hne : (m.nodes idx).orderRef ≠ r := by
    rw [hwritten.orderRef]
    exact hr.symm
  refine ⟨hhash, ?_, fun _ _ => rfl, ?_, fun _ h => h, id⟩
  . intro i
    unfold Has
    rw [hhash]
    by_cases hb : m.hash r = m.hash ref
    . rw [hb, Function.update_self, List.mem_cons]
      constructor
      . intro hi
        refine ⟨hi.1.resolve_left ?_, hi.2⟩
        intro heq
        rw [heq] at hi
        exact hne hi.2
      . exact fun hi => ⟨Or.inr hi.1, hi.2⟩
    . rw [Function.update_of_ne hb]
      exact Iff.rfl
  . intro i hpassed
    unfold Passed at hpassed ⊢
    rw [hhash]
    by_cases hb : m.hash r = m.hash ref
    . rw [hb] at hpassed
      rw [hb, Function.update_self]
      exact hpassed.push hne
    . rw [Function.update_of_ne hb]
      exact hpassed

theorem Inv.link (h : s.Inv owner fl ch own) {order idx head : Nat}
    (hpc : s.threads t = .insert ref order (.link idx head))
    (hhead : s.map.buckets (s.map.hash ref) = head) (hstate : s.map.state (s.map.hash ref) ≠ .treeified)
    : ((s.setMap (s.map.setBucket (s.map.hash ref) idx)).setPc t (.insert ref order .addLen)).Inv owner fl
        (Function.update ch (s.map.hash ref) (idx :: ch (s.map.hash ref)))
        (Function.update own idx (.chain (s.map.hash ref))) := by
  have hknows := h.knows t
  rw [hpc] at hknows
  have hwritten := hknows.2.1
  have hplace : idx < s.map.capacity ∧ own idx = .thread t := by
    apply (h.slot t idx).1
    rw [hpc]
    rfl
  have hfresh : ∀ b, idx ∉ ch b := by
    intro b hmem
    have hchain := ((h.chain b idx).1 hmem).2
    rw [hplace.2] at hchain
    cases hchain
  have hstored : Stored s.map ch ref none := h.stored_self hpc rfl
  have hnone : Chained s.map ch ref none := by
    cases hstored with
    | inl hs => exact hs.2.2
    | inr hs => exact hs.2.2 hstate
  have hoverflow : s.map.overflow ref = none := hstored.overflow (Or.inr hnone)
  have hhash : (s.map.setBucket (s.map.hash ref) idx).hash ref = s.map.hash ref :=
    congrFun (OrderMap.hash_congr rfl) ref
  have hself : Stored (s.map.setBucket (s.map.hash ref) idx)
      (Function.update ch (s.map.hash ref) (idx :: ch (s.map.hash ref))) ref (some order) := by
    apply Or.inl
    unfold Chained Has
    rw [hhash, Function.update_self]
    exact ⟨hstate, hoverflow, idx, ⟨List.mem_cons_self, hwritten.orderRef⟩, hwritten.order⟩
  have hcarries : Carries s ((s.setMap (s.map.setBucket (s.map.hash ref) idx)).setPc t
      (.insert ref order .addLen)) := ⟨rfl, rfl, rfl, rfl, rfl⟩
  have hkey' : (Pc.insert ref order .addLen).key = some ref := rfl
  apply h.carry hcarries hpc rfl rfl hkey' rfl rfl hplace.1
  . intro t' ht'
    rw [hplace.2] at ht'
    cases ht'
    rfl
  . intro t' ht'
    cases ht'
  . intro i
    by_cases hi : i = idx
    . rw [if_pos hi, hi, h.free, hplace.2]
      constructor
      . intro hfree
        cases hfree.2
      . intro hfree
        cases hfree
    . rw [if_neg hi]
  . intro b i
    by_cases hi : i = idx
    . rw [if_pos hi, hi]
      by_cases hb : b = s.map.hash ref
      . rw [hb, Function.update_self]
        exact iff_of_true List.mem_cons_self rfl
      . rw [Function.update_of_ne hb]
        refine iff_of_false (hfresh b) ?_
        intro heq
        cases heq
        exact hb rfl
    . rw [if_neg hi]
      by_cases hb : b = s.map.hash ref
      . rw [hb, Function.update_self, List.mem_cons, or_iff_right hi]
      . rw [Function.update_of_ne hb]
  . intro i
    by_cases hi : i = idx
    . rw [if_pos hi]
      constructor
      . intro hs
        cases hs
      . intro hs
        cases hs
    . rw [if_neg hi]
      constructor
      . intro hs
        cases hs
      . intro hs
        exact absurd (Option.some.inj hs).symm hi
  . exact h.layout.link hwritten hplace.1 (hknows.2.2.trans hhead.symm) hnone
  . exact h.tag
  . intro i t' _ _
    rfl
  . intro r hr
    exact .link hwritten hr
  . rw [hknows.1]
    exact hself
  . exact Or.inl ⟨rfl, rfl, fun _ => rfl⟩
  . exact ⟨hknows.1, trivial⟩

/--
`m'` is `m` after a write to the head of the bucket `b` or to the link of a node on its chain.
-/
structure Relinks (m m' : OrderMap) (ch : Nat → List Nat) (b : Nat) : Prop where
  capacity : m'.capacity = m.capacity
  freeHead : m'.freeHead = m.freeHead
  state : m'.state = m.state
  overflow : m'.overflow = m.overflow
  size : m'.size = m.size
  buckets : ∀ b', b' ≠ b → m'.buckets b' = m.buckets b'
  nodes : ∀ i, i ∉ ch b → m'.nodes i = m.nodes i
  orderRef : ∀ i, (m'.nodes i).orderRef = (m.nodes i).orderRef
  order : ∀ i, (m'.nodes i).order = (m.nodes i).order
  bucket : ∀ i, (m'.nodes i).bucket = (m.nodes i).bucket

theorem Relinks.setBucket (m : OrderMap) (ch : Nat → List Nat) (b idx : Nat)
    : Relinks m (m.setBucket b idx) ch b :=
  ⟨rfl, rfl, rfl, rfl, rfl, fun _ hb => Function.update_of_ne hb _ _, fun _ _ => rfl, fun _ => rfl,
    fun _ => rfl, fun _ => rfl⟩

theorem Relinks.setNext {m : OrderMap} {b idx : Nat} (hidx : idx ∈ ch b) (next : Nat)
    : Relinks m (m.setNext idx next) ch b := by
  refine ⟨rfl, rfl, rfl, rfl, rfl, fun _ _ => rfl, ?_, OrderMap.setNext_orderRef, OrderMap.setNext_order,
    OrderMap.setNext_bucket⟩
  intro i hi
  apply Function.update_of_ne
  intro heq
  rw [heq] at hi
  exact hi hidx

theorem Layout.unlink {m m' : OrderMap} (h : Layout m fl ch) {b x : Nat} {l₁ l₂ : List Nat}
    (hb : ch b = l₁ ++ x :: l₂) (hrelinks : Relinks m m' ch b)
    (hlist : Chain.IsList m'.next noIdx (m'.buckets b) (l₁ ++ l₂)) (hfree : ∀ i ∈ fl, i ∉ ch b)
    (hother : ∀ b', b' ≠ b → ∀ i ∈ ch b', i ∉ ch b)
    : Layout m' fl (Function.update ch b (l₁ ++ l₂)) := by
  have hhash : m'.hash = m.hash := OrderMap.hash_congr hrelinks.capacity
  have hmem : ∀ b' i, i ∈ Function.update ch b (l₁ ++ l₂) b' → i ∈ ch b' := by
    intro b' i hi
    by_cases hb' : b' = b
    . rw [hb', Function.update_self, List.mem_append] at hi
      rw [hb', hb, List.mem_append, List.mem_cons]
      exact hi.imp_right Or.inr
    . rw [Function.update_of_ne hb'] at hi
      exact hi
  constructor
  . rw [hrelinks.capacity]
    exact h.cap
  . rw [hrelinks.freeHead]
    apply h.free.congr
    intro i hi
    unfold OrderMap.next
    rw [hrelinks.nodes i (hfree i hi)]
  . intro b'
    by_cases hb' : b' = b
    . rw [hb', Function.update_self]
      exact hlist
    . rw [Function.update_of_ne hb', hrelinks.buckets b' hb']
      apply (h.chains b').congr
      intro i hi
      unfold OrderMap.next
      rw [hrelinks.nodes i (hother b' hb' i hi)]
  . intro b' i hi
    rw [hrelinks.bucket]
    exact h.bucket b' i (hmem b' i hi)
  . intro b' i hi
    rw [hhash, hrelinks.orderRef]
    exact h.hashed b' i (hmem b' i hi)
  . intro b' i hi j hj heq
    rw [hrelinks.orderRef, hrelinks.orderRef] at heq
    exact h.distinct b' i (hmem b' i hi) j (hmem b' j hj) heq

theorem Keeps.unlink {m m' : OrderMap} {x r : Nat} {l₁ l₂ : List Nat} (hrelinks : Relinks m m' ch (m.hash ref))
    (hb : ch (m.hash ref) = l₁ ++ x :: l₂) (hx : (m.nodes x).orderRef = ref) (hr : r ≠ ref)
    : Keeps m m' ch (Function.update ch (m.hash ref) (l₁ ++ l₂)) r := by
  have hhash : m'.hash r = m.hash r := congrFun (OrderMap.hash_congr hrelinks.capacity) r
  refine ⟨hhash, ?_, fun i _ => hrelinks.order i, ?_, ?_, ?_⟩
  . intro i
    unfold Has
    rw [hhash, hrelinks.orderRef]
    by_cases hbucket : m.hash r = m.hash ref
    . rw [hbucket, Function.update_self, hb, List.mem_append, List.mem_append, List.mem_cons]
      constructor
      . exact fun hi => ⟨hi.1.imp_right Or.inr, hi.2⟩
      . intro hi
        refine ⟨hi.1.imp_right (fun hor => hor.resolve_left ?_), hi.2⟩
        intro heq
        rw [heq, hx] at hi
        exact hr hi.2.symm
    . rw [Function.update_of_ne hbucket]
  . intro i hpassed
    unfold Passed at hpassed ⊢
    simp only [hhash, hrelinks.orderRef]
    by_cases hbucket : m.hash r = m.hash ref
    . rw [hbucket, hb] at hpassed
      rw [hbucket, Function.update_self]
      exact hpassed.unlink
    . rw [Function.update_of_ne hbucket]
      exact hpassed
  . intro i hi
    rw [hrelinks.orderRef]
    exact hi
  . rw [hrelinks.state]
    exact id

omit [DecidableEq T] in
theorem Inv.unlinked_self (h : s.Inv owner fl ch own) {erasePc : ErasePc} (hpc : s.threads t = .erase ref erasePc)
    (hrole : (Pc.erase ref erasePc).role = {}) {m' : OrderMap} {x : Nat} {l₁ l₂ : List Nat}
    (hx : (s.map.nodes x).orderRef = ref) (hb : ch (s.map.hash ref) = l₁ ++ x :: l₂)
    (hrelinks : Relinks s.map m' ch (s.map.hash ref)) (hstate : s.map.state (s.map.hash ref) ≠ .treeified)
    : Stored m' (Function.update ch (s.map.hash ref) (l₁ ++ l₂)) ref none := by
  have hmem : x ∈ ch (s.map.hash ref) := by
    rw [hb]
    exact List.mem_append_right l₁ List.mem_cons_self
  have hnodup := (h.layout.chains (s.map.hash ref)).nodup
  rw [hb, List.nodup_middle, List.nodup_cons] at hnodup
  have hstored : Stored s.map ch ref (s.live.lookup ref) := by
    have hs := h.stored_self hpc rfl
    rw [if_neg] at hs
    . exact hs
    . rw [hrole]
      exact Bool.false_ne_true
  have hoverflow : s.map.overflow ref = none := by
    cases hstored with
    | inl hs => exact hs.2.1
    | inr hs => exact absurd ⟨hmem, hx⟩ (hs.2.2 hstate x)
  have hhash : m'.hash ref = s.map.hash ref := congrFun (OrderMap.hash_congr hrelinks.capacity) ref
  apply Or.inl
  unfold Chained Has
  rw [hhash, hrelinks.state, hrelinks.overflow, Function.update_self]
  refine ⟨hstate, hoverflow, ?_⟩
  intro i hi
  rw [hrelinks.orderRef] at hi
  have hi' : i ∈ ch (s.map.hash ref) := by
    rw [hb, List.mem_append, List.mem_cons]
    exact (List.mem_append.1 hi.1).imp_right Or.inr
  have heq : i = x := h.layout.distinct _ i hi' x hmem (hi.2.trans hx.symm)
  rw [heq] at hi
  exact hnodup.1 hi.1

theorem Inv.unlink (h : s.Inv owner fl ch own) {erasePc : ErasePc} (hpc : s.threads t = .erase ref erasePc)
    (hrole : (Pc.erase ref erasePc).role = {}) {m' : OrderMap} {x : Nat} {l₁ l₂ : List Nat}
    (hchained : Chained s.map ch ref (s.live.lookup ref)) (hx : (s.map.nodes x).orderRef = ref)
    (hb : ch (s.map.hash ref) = l₁ ++ x :: l₂) (hrelinks : Relinks s.map m' ch (s.map.hash ref))
    (hlist : Chain.IsList m'.next noIdx (m'.buckets (s.map.hash ref)) (l₁ ++ l₂))
    (hstate : s.map.state (s.map.hash ref) ≠ .treeified)
    : ((s.setMap m').setPc t (.erase ref (.free x .load))).Inv owner fl
        (Function.update ch (s.map.hash ref) (l₁ ++ l₂)) (Function.update own x (.thread t)) := by
  have hmem : x ∈ ch (s.map.hash ref) := by
    rw [hb]
    exact List.mem_append_right l₁ List.mem_cons_self
  have hplace := (h.chain _ x).1 hmem
  have hnodup := (h.layout.chains (s.map.hash ref)).nodup
  rw [hb, List.nodup_middle, List.nodup_cons] at hnodup
  have hlive : s.live.lookup ref = some (s.map.nodes x).order := h.layout.chained_eq hchained ⟨hmem, hx⟩
  have hself := h.unlinked_self hpc hrole hx hb hrelinks hstate
  have hcarries : Carries s ((s.setMap m').setPc t (.erase ref (.free x .load))) :=
    ⟨hrelinks.capacity, hrelinks.state, hrelinks.overflow, hrelinks.size, rfl⟩
  have hkey' : (Pc.erase ref (.free x .load)).key = some ref := rfl
  have hnot : ∀ i place, own i = place → (∀ b, place ≠ .chain b) → i ∉ ch (s.map.hash ref) := by
    intro i place hi hne hmem'
    exact hne _ (hi.symm.trans ((h.chain _ i).1 hmem').2)
  have hfree : ∀ i ∈ fl, i ∉ ch (s.map.hash ref) := by
    intro i hi
    apply hnot i _ ((h.free i).1 hi).2
    intro b heq
    cases heq
  apply h.carry hcarries hpc rfl rfl hkey' _ rfl hplace.1
  . intro t' ht'
    rw [hplace.2] at ht'
    cases ht'
  . intro t' ht'
    cases ht'
    rfl
  . intro i
    by_cases hi : i = x
    . rw [if_pos hi, hi]
      refine iff_of_false (fun hf => hfree x hf hmem) ?_
      intro heq
      cases heq
    . rw [if_neg hi]
  . intro b i
    by_cases hi : i = x
    . rw [if_pos hi, hi]
      refine iff_of_false ?_ (fun heq => nomatch heq)
      by_cases hbb : b = s.map.hash ref
      . rw [hbb, Function.update_self]
        exact hnodup.1
      . rw [Function.update_of_ne hbb, h.chain, hplace.2]
        intro heq
        cases heq.2
        exact hbb rfl
    . rw [if_neg hi]
      by_cases hbb : b = s.map.hash ref
      . rw [hbb, Function.update_self, hb, List.mem_append, List.mem_append, List.mem_cons,
          or_iff_right hi]
      . rw [Function.update_of_ne hbb]
  . intro i
    by_cases hi : i = x
    . rw [if_pos hi, hi]
      exact iff_of_true rfl rfl
    . rw [if_neg hi, hrole]
      constructor
      . intro hs
        exact absurd (Option.some.inj hs).symm hi
      . intro hs
        cases hs
  . apply h.layout.unlink hb hrelinks hlist hfree
    intro b' hb' i hi hmem'
    have heq := ((h.chain b' i).1 hi).2.symm.trans ((h.chain _ i).1 hmem').2
    cases heq
    exact hb' rfl
  . show m'.freeHead.tag = _
    rw [hrelinks.freeHead]
    exact h.tag
  . intro i t' _ hi
    apply hrelinks.nodes i
    apply hnot i _ hi
    intro b heq
    cases heq
  . intro r hr
    exact .unlink hrelinks hb hx hr
  . exact hself
  . apply Or.inl
    refine ⟨rfl, hrelinks.freeHead, ?_⟩
    intro hne
    show (m'.nodes _).nextIdx = _
    rw [hrelinks.nodes _ (hfree _ (h.layout.head_mem hne))]
    rfl
  . refine ⟨?_, trivial⟩
    show s.live.lookup ref ≠ none
    rw [hlive]
    exact Option.some_ne_none _
  . rw [hrole]
    rfl

/-!
Steps from a chain to `overflow_`.
-/

theorem setState_self (m : OrderMap) (b : Nat) (state : BucketState) : (m.setState b state).state b = state :=
  Function.update_self _ _ _

theorem setState_of_ne (m : OrderMap) {b b' : Nat} (hb : b' ≠ b) (state : BucketState)
    : (m.setState b state).state b' = m.state b' :=
  Function.update_of_ne hb _ _

theorem setState_hash (m : OrderMap) (b : Nat) (state : BucketState) : (m.setState b state).hash = m.hash :=
  OrderMap.hash_congr rfl

theorem setOverflow_hash (m : OrderMap) (overflow : Nat → Option Nat) : (m.setOverflow overflow).hash = m.hash :=
  OrderMap.hash_congr rfl

theorem Keeps.setState (m : OrderMap) (b : Nat) {state : BucketState} (hstate : state ≠ .chain) (r : Nat)
    : Keeps m (m.setState b state) ch ch r := by
  have hkept : m.state (m.hash r) ≠ .chain → (m.setState b state).state (m.hash r) ≠ .chain := by
    intro hne
    by_cases hb : m.hash r = b
    . rw [hb, setState_self]
      exact hstate
    . rw [setState_of_ne m hb]
      exact hne
  exact .of_chains rfl (fun _ _ => rfl) (fun _ hr => hr) hkept

theorem Inv.treeify (h : s.Inv owner fl ch own) {order : Nat} {linked : Bool}
    (hpc : s.threads t = .insert ref order (.treeify linked)) (hstate : s.map.state (s.map.hash ref) = .chain)
    : ((s.setMap (s.map.setState (s.map.hash ref) .treeifying)).setPc t
        (.insert ref order (.migrate linked))).Inv owner fl ch own := by
  have hkeeps : ∀ r, Keeps s.map (s.map.setState (s.map.hash ref) .treeifying) ch ch r :=
    Keeps.setState s.map _ (fun heq => nomatch heq)
  have hstored : ∀ r o, Stored s.map ch r o →
      Stored (s.map.setState (s.map.hash ref) .treeifying) ch r o := by
    intro r o
    apply (hkeeps r).stored rfl
    by_cases hb : s.map.hash r = s.map.hash ref
    . rw [hb, setState_self, hstate]
      exact iff_of_false (fun heq => nomatch heq) (fun heq => nomatch heq)
    . rw [setState_of_ne _ hb]
  have hne : ∀ t' r, (s.threads t').Migrates r → s.map.hash r ≠ s.map.hash ref := by
    intro t' r hm hb
    have htreeifying := h.state_of_migrates hm
    rw [hb, hstate] at htreeifying
    cases htreeifying
  have hself := hstored ref _ (h.stored_self hpc rfl)
  have hknows := h.knows t
  rw [hpc] at hknows
  have hknows' : (Pc.insert ref order (.migrate linked)).Knows
      (s.setMap (s.map.setState (s.map.hash ref) .treeifying)) ch := by
    refine ⟨hknows.1, ?_⟩
    dsimp only [InsertPc.Knows, setMap]
    rw [setState_hash, setState_self]
  have hkey' : (Pc.insert ref order (.migrate linked)).key = some ref := rfl
  apply h.move hpc rfl (h.owner_eq hpc rfl) (Or.inl rfl) (Or.inl hkey')
  . exact h.layout.of_chains rfl rfl rfl (fun _ _ => rfl) (fun _ _ _ => rfl)
  . rfl
  . exact h.tag
  . exact h.free
  . exact h.chain
  . intro i
    rw [← h.slot t i, hpc]
    rfl
  . exact fun _ _ _ => Iff.rfl
  . exact fun _ _ _ _ => rfl
  . exact fun r _ => hkeeps r
  . exact fun _ _ => rfl
  . exact fun r o _ => hstored r o
  . exact hself
  . exact Or.inl ⟨rfl, rfl, fun _ => rfl⟩
  . intro t' r _ hm htreeifying
    exact (setState_of_ne _ (hne t' r hm) _).trans htreeifying
  . exact fun _ t' r _ hm => hne t' r hm
  . exact hknows'.of_eq rfl rfl rfl
  . exact fun _ hn => hn
  . exact h.sizeLt
  . exact h.card

/--
The entries of the chain of a bucket are copied to `overflow`, the others are the ones of `overflow_`.
-/
structure Copied (m : OrderMap) (ch : Nat → List Nat) (b : Nat) (overflow : Nat → Option Nat) : Prop where
  copied : ∀ i ∈ ch b, overflow (m.nodes i).orderRef = some (m.nodes i).order
  other : ∀ r, (∀ i ∈ ch b, (m.nodes i).orderRef ≠ r) → overflow r = m.overflow r

theorem copyChain_spec {m : OrderMap} {l : List Nat} {fuel cur : Nat} {before after : Nat → Option Nat}
    (hlist : Chain.IsList m.next noIdx cur l) (hcopy : m.copyChain fuel cur before = some after)
    (hdistinct : (l.map (fun i => (m.nodes i).orderRef)).Nodup)
    : (∀ i ∈ l, after (m.nodes i).orderRef = some (m.nodes i).order) ∧
        ∀ r, (∀ i ∈ l, (m.nodes i).orderRef ≠ r) → after r = before r := by
  induction l generalizing fuel cur before with
  | nil =>
    unfold OrderMap.copyChain at hcopy
    rw [if_pos (Chain.isList_nil.1 hlist)] at hcopy
    cases hcopy
    exact ⟨(fun i hi => nomatch hi), fun _ _ => rfl⟩
  | cons i l ih =>
    have hcons := Chain.isList_cons.1 hlist
    rw [List.map_cons, List.nodup_cons] at hdistinct
    unfold OrderMap.copyChain at hcopy
    rw [hcons.1, if_neg hcons.2.1] at hcopy
    cases fuel with
    | zero => cases hcopy
    | succ fuel =>
      have hrest := ih hcons.2.2 hcopy hdistinct.2
      constructor
      . intro j hj
        cases List.mem_cons.1 hj with
        | inl heq =>
          rw [heq, hrest.2, Function.update_self]
          intro k hk hsame
          exact hdistinct.1 (List.mem_map.2 ⟨k, hk, hsame⟩)
        | inr hmem => exact hrest.1 j hmem
      . intro r hr
        rw [hrest.2 r (fun j hj => hr j (List.mem_cons_of_mem i hj))]
        exact Function.update_of_ne (hr i List.mem_cons_self).symm _ _

theorem Layout.copied {m : OrderMap} (h : Layout m fl ch) {b fuel : Nat} {overflow : Nat → Option Nat}
    (hcopy : m.copyChain fuel (m.buckets b) m.overflow = some overflow) : Copied m ch b overflow := by
  have hdistinct : ((ch b).map (fun i => (m.nodes i).orderRef)).Nodup :=
    (h.chains b).nodup.map_on (fun i hi j hj heq => h.distinct b i hi j hj heq)
  have hspec := copyChain_spec (h.chains b) hcopy hdistinct
  exact ⟨hspec.1, hspec.2⟩

theorem Copied.stored {m : OrderMap} {b r : Nat} {o : Option Nat} {overflow : Nat → Option Nat}
    (h : Copied m ch b overflow) (hhashed : ∀ i ∈ ch b, m.hash (m.nodes i).orderRef = b)
    (hstate : m.state b = .treeifying) (hstored : Stored m ch r o)
    : Stored ((m.setOverflow overflow).setState b .treeified) ch r o := by
  have hhash : ((m.setOverflow overflow).setState b .treeified).hash r = m.hash r := by
    rw [setState_hash, setOverflow_hash]
  have hne : m.state b ≠ .treeified := by
    rw [hstate]
    exact fun heq => nomatch heq
  by_cases hb : m.hash r = b
  . have hkept : Chained m ch r none → overflow r = m.overflow r := by
      intro hnone
      apply h.other
      intro i hi heq
      rw [← hb] at hi
      exact hnone i ⟨hi, heq⟩
    have hoverflow : overflow r = o := by
      cases hstored with
      | inl hs =>
        cases o with
        | none => exact (hkept hs.2.2).trans hs.2.1
        | some order =>
          cases hs.2.2 with
          | intro i hi =>
            have hmem := hi.1.1
            rw [hb] at hmem
            rw [← hi.1.2, ← hi.2]
            exact h.copied i hmem
      | inr hs =>
        rw [hb] at hs
        exact (hkept (hs.2.2 hne)).trans hs.2.1
    apply Or.inr
    rw [hhash, hb, setState_self]
    exact ⟨(fun heq => nomatch heq), hoverflow, fun hnot => absurd rfl hnot⟩
  . apply hstored.of_chained hhash
    . intro o hchained
      exact hchained.of_nodes hhash (fun _ _ => rfl)
    . apply h.other
      intro i hi heq
      apply hb
      rw [← heq]
      exact hhashed i hi
    . rw [setState_of_ne _ hb]
      rfl
    . rw [setState_of_ne _ hb]
      exact id

theorem Inv.migrate (h : s.Inv owner fl ch own) {order : Nat} {linked : Bool} {overflow : Nat → Option Nat}
    (hpc : s.threads t = .insert ref order (.migrate linked))
    (hcopy : s.map.copyChain s.map.capacity (s.map.buckets (s.map.hash ref)) s.map.overflow = some overflow)
    : ((s.setMap ((s.map.setOverflow overflow).setState (s.map.hash ref) .treeified)).setPc t
        (afterTreeify ref order linked)).Inv owner fl ch own := by
  have hknows := h.knows t
  rw [hpc] at hknows
  have hstored : ∀ r o, Stored s.map ch r o →
      Stored ((s.map.setOverflow overflow).setState (s.map.hash ref) .treeified) ch r o :=
    fun r o => (h.layout.copied hcopy).stored (h.layout.hashed _) hknows.2
  have hself := hstored ref _ (h.stored_self hpc rfl)
  have hkeeps : ∀ r, Keeps s.map ((s.map.setOverflow overflow).setState (s.map.hash ref) .treeified) ch ch r := by
    intro r
    have hk : Keeps s.map (s.map.setState (s.map.hash ref) .treeified) ch ch r := by
      apply Keeps.setState
      exact fun heq => nomatch heq
    exact .of_chains rfl (fun _ _ => rfl) (fun _ hr => hr) hk.chain
  have hkey' : (afterTreeify ref order linked).key = some ref ∨ afterTreeify ref order linked = .idle := by
    cases linked with
    | true => exact Or.inr rfl
    | false => exact Or.inl rfl
  have hrole : (afterTreeify ref order linked).role =
      { hidden := !linked, pending := if linked then 0 else 1 } := by
    cases linked with
    | true => rfl
    | false => rfl
  have hknows' : (afterTreeify ref order linked).Knows
      (s.setMap ((s.map.setOverflow overflow).setState (s.map.hash ref) .treeified)) ch := by
    cases linked with
    | true => trivial
    | false =>
      refine ⟨hknows.1, ?_⟩
      dsimp only [InsertPc.Knows, setMap]
      rw [setState_hash, setOverflow_hash, setState_self]
      exact fun heq => nomatch heq
  apply h.move hpc rfl (h.owner_eq hpc rfl) (Or.inl rfl) hkey'
  . exact h.layout.of_chains rfl rfl rfl (fun _ _ => rfl) (fun _ _ _ => rfl)
  . rfl
  . exact h.tag
  . exact h.free
  . exact h.chain
  . intro i
    rw [← h.slot t i, hpc, hrole]
    rfl
  . exact fun _ _ _ => Iff.rfl
  . exact fun _ _ _ _ => rfl
  . exact fun r _ => hkeeps r
  . exact fun _ _ => rfl
  . exact fun r o _ => hstored r o
  . rw [hrole]
    exact hself
  . exact Or.inl ⟨rfl, rfl, fun _ => rfl⟩
  . intro t' r ht' hm htreeifying
    refine (setState_of_ne _ ?_ _).trans htreeifying
    intro hb
    apply ht'
    apply h.alone t' t r ref hm _ hb
    rw [hpc]
    exact ⟨rfl, rfl⟩
  . intro hm
    rw [hrole] at hm
    cases hm
  . exact hknows'.of_eq rfl rfl rfl
  . intro n hn
    rw [hrole]
    exact hn
  . exact h.sizeLt
  . exact h.card

/-!
Steps that change what is live, or how much of it is counted.
-/

theorem Inv.addSize (h : s.Inv owner fl ch own) {order : Nat} (hpc : s.threads t = .insert ref order .addSize)
    : ((s.setMap (s.map.setSize (Wrap.add (2 ^ 64) s.map.size 1))).setPc t
        (.insert ref order .reloadLen)).Inv owner fl ch own := by
  have hknows := h.knows t
  rw [hpc] at hknows
  have hlocal : Local s ((s.setMap (s.map.setSize (Wrap.add (2 ^ 64) s.map.size 1))).setPc t
      (.insert ref order .reloadLen)) (fun _ => False) ref :=
    ⟨rfl, rfl, rfl, rfl, rfl, fun _ _ => rfl, fun _ => Or.inl rfl, fun _ _ => rfl, fun _ _ => rfl⟩
  have hstored : Stored s.map ch ref (s.live.lookup ref) := h.stored_self hpc rfl
  have hkey' : (Pc.insert ref order .reloadLen).key = some ref := rfl
  apply h.step_local hlocal (fun _ hmine => hmine.elim) hpc rfl (h.owner_eq hpc rfl) (Or.inl rfl)
    (Or.inl hkey') rfl rfl
  . exact hstored.of_nodes rfl rfl rfl rfl
  . exact ⟨hknows.1, trivial⟩
  . exact fun n hn => Wrap.add_one_mod hn
  . exact Nat.mod_lt _ (by decide)
  . exact h.card

theorem Inv.lockedInsert (h : s.Inv owner fl ch own) {order : Nat} {m : OrderMap}
    (hpc : s.threads t = .insert ref order .locked)
    (hm : m = s.map.setOverflow (Function.update s.map.overflow ref (some order)))
    : ((s.setMap (m.setSize (Wrap.add (2 ^ 64) m.size 1))).setPc t .idle).Inv owner fl ch own := by
  subst hm
  have hknows := h.knows t
  rw [hpc] at hknows
  have hstored : Stored s.map ch ref none := h.stored_self hpc rfl
  generalize hs' : (s.setMap ((s.map.setOverflow (Function.update s.map.overflow ref (some order))).setSize
    (Wrap.add (2 ^ 64) s.map.size 1))).setPc t .idle = s'
  have hlocal : Local s s' (fun _ => False) ref := by
    subst hs'
    exact ⟨rfl, rfl, rfl, rfl, rfl, fun _ _ => rfl, fun _ => Or.inl rfl,
      fun r hr => Function.update_of_ne hr _ _, fun _ _ => rfl⟩
  subst hs'
  apply h.step_local hlocal (fun _ hmine => hmine.elim) hpc rfl (h.owner_eq hpc rfl) (Or.inl rfl)
    (Or.inr rfl) rfl rfl
  . refine Stored.of_overflow rfl rfl rfl ?_ hknows.2 hstored.moved_of_none
    exact (Function.update_self _ _ _).trans hknows.1.symm
  . trivial
  . exact fun n hn => Wrap.add_one_mod hn
  . exact Nat.mod_lt _ (by decide)
  . exact h.card

theorem card_erase {live : Finmap (fun _ : Nat => Nat)} (hlive : live.lookup ref ≠ none)
    : live.keys.card = (live.erase ref).keys.card + 1 := by
  have hmem : ref ∈ live.keys := by
    rw [Finmap.mem_keys]
    exact not_not.1 (fun hnot => hlive (Finmap.lookup_eq_none.2 hnot))
  rw [Finmap.keys_erase, Finset.card_erase_add_one hmem]

theorem Inv.erased (h : s.Inv owner fl ch own) {erasePc : ErasePc} {m : OrderMap} {size : Nat}
    (hpc : s.threads t = .erase ref erasePc) (hslot : erasePc.role.slot = none)
    (hpending : erasePc.role.pending = 0) (hlive : s.live.lookup ref ≠ none)
    (hlocal : Local s (s.setMap m) (fun _ => False) ref) (hstored : Stored m ch ref none)
    (hsize : Wrap.sub (2 ^ 64) s.map.size 1 = size)
    : (((s.setMap (m.setSize size)).dropLive ref).setPc t .idle).Inv owner fl ch own := by
  have hlocal' : Local s (((s.setMap (m.setSize size)).dropLive ref).setPc t .idle) (fun _ => False) ref := by
    refine ⟨hlocal.capacity, hlocal.buckets, hlocal.freeHead, hlocal.state, rfl, hlocal.nodes,
      hlocal.orderRef, hlocal.overflow, ?_⟩
    intro r hr
    exact Finmap.lookup_erase_ne hr
  have hcard := card_erase hlive
  apply h.step_local hlocal' (fun _ hmine => hmine.elim) hpc rfl (h.owner_eq hpc rfl) (Or.inl rfl)
    (Or.inr rfl) hslot.symm rfl
  . show Stored (m.setSize size) ch ref ((s.live.erase ref).lookup ref)
    rw [Finmap.lookup_erase]
    exact hstored.of_nodes rfl rfl rfl rfl
  . trivial
  . intro n hn
    rw [hcard, Pc.role, hpending] at hn
    show (size + (n + 0)) % 2 ^ 64 = (s.live.erase ref).keys.card % 2 ^ 64
    rw [← hsize]
    exact Wrap.sub_one_mod (by decide) hn
  . show size < 2 ^ 64
    rw [← hsize]
    exact Nat.mod_lt _ (by decide)
  . show (s.live.erase ref).keys.card ≤ s.map.capacity
    have hle := h.card
    omega

theorem Inv.beginInsert (h : s.Inv owner fl ch own) (hpc : s.threads t = .idle) (ht : owner ref = t)
    (hlive : s.live.lookup ref = none) (hcard : s.live.keys.card < s.map.capacity) (order : Nat)
    : ((s.addLive ref order).setPc t (.insert ref order .loadState)).Inv owner fl ch own := by
  have hlocal : Local s ((s.addLive ref order).setPc t (.insert ref order .loadState)) (fun _ => False) ref :=
    ⟨rfl, rfl, rfl, rfl, rfl, fun _ _ => rfl, fun _ => Or.inl rfl, fun _ _ => rfl,
      fun r hr => Finmap.lookup_insert_of_ne _ hr⟩
  have hkey' : (Pc.insert ref order .loadState).key = some ref := rfl
  have hstored := h.view_idle hpc ht
  rw [hlive] at hstored
  have hsucc : (s.live.insert ref order).keys.card = s.live.keys.card + 1 := by
    have hback : (s.live.insert ref order).lookup ref ≠ none := by
      rw [Finmap.lookup_insert]
      exact Option.some_ne_none _
    have herase : (s.live.insert ref order).erase ref = s.live := by
      apply Finmap.ext_lookup
      intro r
      by_cases hr : r = ref
      . rw [hr, Finmap.lookup_erase, hlive]
      . rw [Finmap.lookup_erase_ne hr, Finmap.lookup_insert_of_ne _ hr]
    rw [card_erase hback, herase]
  apply h.step_local hlocal (fun _ hmine => hmine.elim) hpc rfl ht (Or.inr rfl) (Or.inl hkey') rfl rfl hstored
  . exact ⟨Finmap.lookup_insert _, trivial⟩
  . intro n hn
    show (s.map.size + (n + 1)) % 2 ^ 64 = (s.live.insert ref order).keys.card % 2 ^ 64
    have hn' : (s.map.size + n) % 2 ^ 64 = s.live.keys.card % 2 ^ 64 := hn
    rw [hsucc, ← Nat.add_assoc, Nat.add_mod, hn', ← Nat.add_mod]
  . exact h.sizeLt
  . show (s.live.insert ref order).keys.card ≤ s.map.capacity
    omega

theorem Inv.begin (h : s.Inv owner fl ch own) (hpc : s.threads t = .idle) (ht : owner ref = t)
    (hkey' : pc'.key = some ref) (hrole : pc'.role = {}) (hknows : pc'.Knows s ch)
    : (s.setPc t pc').Inv owner fl ch own := by
  have hlocal : Local s (s.setPc t pc') (fun _ => False) ref :=
    ⟨rfl, rfl, rfl, rfl, rfl, fun _ _ => rfl, fun _ => Or.inl rfl, fun _ _ => rfl, fun _ _ => rfl⟩
  apply h.step_local hlocal (fun _ hmine => hmine.elim) hpc rfl ht (Or.inr rfl) (Or.inl hkey')
  . rw [hrole]
    rfl
  . rw [hrole]
  . rw [hrole]
    exact h.view_idle hpc ht
  . exact hknows.of_eq rfl rfl rfl
  . intro n hn
    rw [hrole]
    exact hn
  . exact h.sizeLt
  . exact h.card

end SharedMap

end NebulaXTrader
