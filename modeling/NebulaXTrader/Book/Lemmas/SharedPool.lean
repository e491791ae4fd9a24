import NebulaXTrader.Book.SharedPool
import NebulaXTrader.Lib.Tally

/-!
This module contains the invariant of the shared pool and the lemma that every timely step keeps it.
-/

namespace NebulaXTrader

namespace SharedPool

structure Known (p : OrderPool) (exchanges : Nat) (fh : TaggedHead) (since : Nat) : Prop where
  ne : fh.idx ≠ noIdx
  le : since ≤ exchanges
  tag : fh.tag = since % 2 ^ 32
  head : since = exchanges → fh = p.freeHead

def Pc.Knows (pc : Pc) (p : OrderPool) (exchanges : Nat) : Prop :=
  match pc with
  | .loadNext fh since => Known p exchanges fh since
  | .takeHead fh since next => Known p exchanges fh since ∧ (since = exchanges → next = p.nextFree fh.idx)
  | .pushHead idx fh _ => p.nextFree idx = fh.idx
  | _ => True

structure Thread.Good (u : Thread) (p : OrderPool) (exchanges : Nat) : Prop where
  apart : ∀ i, u.pc.slot = some i → i ∉ u.held
  knows : u.pc.Knows p exchanges

def Pc.counted (pc : Pc) : Nat := if pc.isFreeing ∨ pc = .pushed then 1 else 0

def Thread.counted (u : Thread) : Nat := u.held.card + u.pc.counted

variable {T : Type} [Fintype T] {s s' : SharedPool T} {fl fl' : List Nat} {t : T} {u : Thread}

structure Inv (s : SharedPool T) (fl : List Nat) : Prop where
  free : s.pool.Free fl
  tag : s.pool.freeHead.tag = s.exchanges % 2 ^ 32
  owned : ∀ t i, (s.threads t).Owns i → i < s.pool.capacity ∧ i ∉ fl
  alone : ∀ t t' i, (s.threads t).Owns i → (s.threads t').Owns i → t = t'
  covered : ∀ i, i < s.pool.capacity → i ∈ fl ∨ ∃ t, (s.threads t).Owns i
  good : ∀ t, (s.threads t).Good s.pool s.exchanges
  size : s.pool.size = (∑ t, (s.threads t).counted) % 2 ^ 64

theorem Inv.init {capacity : Nat} (h0 : 0 < capacity) (h : capacity ≤ noIdx)
    : (init T capacity).Inv (List.range capacity) := by
  have hnone : ∀ t i, ¬ ((SharedPool.init T capacity).threads t).Owns i := by
    intro t i howns
    cases howns with
    | inl hheld => exact Finset.notMem_empty i hheld
    | inr hslot => cases hslot
  constructor
  . exact .init h0 h
  . rfl
  . intro t i howns
    exact absurd howns (hnone t i)
  . intro t _ i howns
    exact absurd howns (hnone t i)
  . intro i hi
    exact Or.inl (List.mem_range.2 hi)
  . intro t
    constructor
    . intro i hi
      cases hi
    . trivial
  . have hzero : ∑ t, ((SharedPool.init T capacity).threads t).counted = 0 := by
      apply Finset.sum_eq_zero
      intro t _
      rfl
    rw [hzero]
    rfl

theorem Inv.known (h : s.Inv fl) (hne : s.pool.freeHead.idx ≠ noIdx)
    : Known s.pool s.exchanges s.pool.freeHead s.exchanges :=
  ⟨hne, Nat.le_refl _, h.tag, fun _ => rfl⟩

variable [DecidableEq T]

theorem Inv.move (h : s.Inv fl) (hthreads : s'.threads = Function.update s.threads t u)
    (hcap : s'.pool.capacity = s.pool.capacity) (hfree : s'.pool.Free fl')
    (htag : s'.pool.freeHead.tag = s'.exchanges % 2 ^ 32)
    (hslots : ∀ i, (u.Owns i ∨ i ∈ fl') ↔ ((s.threads t).Owns i ∨ i ∈ fl))
    (hfresh : ∀ i, u.Owns i → i ∉ fl') (hgood : u.Good s'.pool s'.exchanges)
    (hothers : ∀ t', t' ≠ t → (s.threads t').Good s.pool s.exchanges →
      (s.threads t').Good s'.pool s'.exchanges)
    (hsize : ∀ n, s.pool.size = (n + (s.threads t).counted) % 2 ^ 64 →
      s'.pool.size = (n + u.counted) % 2 ^ 64)
    : s'.Inv fl' := by
  -- A step of one thread keeps the invariant if this thread and the free list together keep their
  -- slots and the other threads still know what they knew.
  have hself : s'.threads t = u := by
    rw [hthreads, Function.update_self]
  have hother : ∀ t', t' ≠ t → s'.threads t' = s.threads t' := by
    intro t' ht'
    rw [hthreads, Function.update_of_ne ht']
  -- a slot of another thread is neither on the old list nor with this thread
  have hapart : ∀ t' i, t' ≠ t → (s.threads t').Owns i → ¬ (u.Owns i ∨ i ∈ fl') := by
    intro t' i ht' howns hor
    cases (hslots i).1 hor with
    | inl hown => exact ht' (h.alone t' t i howns hown)
    | inr hmem => exact (h.owned t' i howns).2 hmem
  constructor
  . exact hfree
  . exact htag
  . intro t' i howns
    rw [hcap]
    by_cases ht' : t' = t
    . subst ht'
      rw [hself] at howns
      constructor
      . cases (hslots i).1 (Or.inl howns) with
        | inl hown => exact (h.owned t' i hown).1
        | inr hmem => exact h.free.lt i hmem
      . exact hfresh i howns
    . rw [hother t' ht'] at howns
      constructor
      . exact (h.owned t' i howns).1
      . exact fun hmem => hapart t' i ht' howns (Or.inr hmem)
  . intro t₁ t₂ i h₁ h₂
    by_cases ht₁ : t₁ = t
    . by_cases ht₂ : t₂ = t
      . rw [ht₁, ht₂]
      . rw [ht₁, hself] at h₁
        rw [hother t₂ ht₂] at h₂
        exact absurd (Or.inl h₁) (hapart t₂ i ht₂ h₂)
    . rw [hother t₁ ht₁] at h₁
      by_cases ht₂ : t₂ = t
      . rw [ht₂, hself] at h₂
        exact absurd (Or.inl h₂) (hapart t₁ i ht₁ h₁)
      . rw [hother t₂ ht₂] at h₂
        exact h.alone t₁ t₂ i h₁ h₂
  . intro i hi
    rw [hcap] at hi
    have hmove : (s.threads t).Owns i ∨ i ∈ fl → i ∈ fl' ∨ ∃ t', (s'.threads t').Owns i := by
      intro hor
      cases (hslots i).2 hor with
      | inl howns =>
        rw [← hself] at howns
        exact Or.inr ⟨t, howns⟩
      | inr hmem => exact Or.inl hmem
    cases h.covered i hi with
    | inl hmem => exact hmove (Or.inr hmem)
    | inr hex =>
      cases hex with
      | intro t' howns =>
        by_cases ht' : t' = t
        . rw [ht'] at howns
          exact hmove (Or.inl howns)
        . rw [← hother t' ht'] at howns
          exact Or.inr ⟨t', howns⟩
  . intro t'
    by_cases ht' : t' = t
    . rw [ht', hself]
      exact hgood
    . rw [hother t' ht']
      exact hothers t' ht' (h.good t')
  . cases Tally.sum_update Thread.counted s.threads t u with
    | intro n hn =>
      rw [hthreads, hn.2]
      apply hsize n
      rw [h.size, hn.1]

theorem Inv.setThread (h : s.Inv fl) (howns : ∀ i, u.Owns i ↔ (s.threads t).Owns i)
    (hgood : u.Good s.pool s.exchanges) (hcounted : u.counted = (s.threads t).counted)
    : (s.setThread t u).Inv fl := by
  apply h.move (t := t) (u := u)
  . rfl
  . rfl
  . exact h.free
  . exact h.tag
  . intro i
    rw [howns i]
  . intro i hi
    exact (h.owned t i ((howns i).1 hi)).2
  . exact hgood
  . exact fun _ _ hg => hg
  . intro n hn
    rw [hcounted]
    exact hn

theorem Inv.setPc (h : s.Inv fl) {pc : Pc} (hslot : pc.slot = (s.threads t).pc.slot)
    (hknows : pc.Knows s.pool s.exchanges) (hcounted : pc.counted = (s.threads t).pc.counted)
    : (s.setPc t pc).Inv fl := by
  apply h.setThread
  . intro i
    unfold Thread.Owns
    rw [hslot]
  . constructor
    . intro i hi
      rw [hslot] at hi
      exact (h.good t).apart i hi
    . exact hknows
  . unfold Thread.counted
    rw [hcounted]

theorem Inv.test (h : s.Inv fl) (hslot : (s.threads t).pc.slot = none)
    (hcounted : (s.threads t).pc.counted = 0) : (s.test t).Inv fl := by
  unfold SharedPool.test
  split
  . apply h.setPc
    . exact hslot.symm
    . trivial
    . exact hcounted.symm
  . next hne =>
    apply h.setPc
    . exact hslot.symm
    . exact h.known hne
    . exact hcounted.symm

theorem Pc.Knows.exchanged {pc : Pc} {p p' : OrderPool} {exchanges : Nat} (h : pc.Knows p exchanges)
    (hnext : p'.nextFree = p.nextFree) : pc.Knows p' (exchanges + 1) := by
  -- After an exchange nobody else trusts the head that it read.
  have hknown : ∀ {fh : TaggedHead} {since : Nat}, Known p exchanges fh since →
      Known p' (exchanges + 1) fh since := by
    intro fh since hk
    have hle := hk.le
    refine ⟨hk.ne, by omega, hk.tag, ?_⟩
    intro heq
    omega
  cases pc with
  | loadNext fh since => exact hknown h
  | takeHead fh since next =>
    refine ⟨hknown h.1, ?_⟩
    intro heq
    have hle := h.1.le
    omega
  | pushHead idx fh since =>
    show p'.nextFree idx = fh.idx
    rw [hnext]
    exact h
  | _ => trivial

theorem Known.congr {p p' : OrderPool} {exchanges : Nat} {fh : TaggedHead} {since : Nat}
    (h : Known p exchanges fh since) (hhead : p'.freeHead = p.freeHead) : Known p' exchanges fh since := by
  refine ⟨h.ne, h.le, h.tag, ?_⟩
  rw [hhead]
  exact h.head

theorem Pc.Knows.stored {pc : Pc} {p p' : OrderPool} {exchanges idx : Nat} (h : pc.Knows p exchanges)
    (hhead : p'.freeHead = p.freeHead) (hnext : ∀ i, i ≠ idx → p'.nextFree i = p.nextFree i)
    (hfree : p.freeHead.idx ≠ noIdx → p.freeHead.idx ≠ idx) (hslot : pc.slot ≠ some idx)
    : pc.Knows p' exchanges := by
  -- The store of a link that nobody else looks at.
  cases pc with
  | loadNext fh since => exact Known.congr h hhead
  | takeHead fh since next =>
    refine ⟨h.1.congr hhead, ?_⟩
    intro heq
    have hfh := h.1.head heq
    have hne := h.1.ne
    rw [hfh] at hne
    rw [h.2 heq, hfh, hnext _ (hfree hne)]
  | pushHead i fh since =>
    show p'.nextFree i = fh.idx
    rw [hnext]
    . exact h
    . intro heq
      rw [heq] at hslot
      exact hslot rfl
  | _ => trivial

theorem bump_tag {fh : TaggedHead} {exchanges : Nat} (h : fh.tag = exchanges % 2 ^ 32) (idx : Nat)
    : (fh.bump idx).tag = (exchanges + 1) % 2 ^ 32 := by
  show (fh.tag + 1) % 2 ^ 32 = _
  rw [h, Nat.mod_add_mod]

theorem Inv.takeHead (h : s.Inv fl) {fh : TaggedHead} {since next : Nat}
    (hpc : (s.threads t).pc = .takeHead fh since next) (hhead : s.pool.freeHead = fh)
    (htimely : s.exchanges < since + 2 ^ 32)
    : ((s.exchange next).setPc t (.taken fh.idx)).Inv fl.tail := by
  -- An exchange that takes the first slot. Here the tag counts: the head is the one that the thread
  -- read, so no exchange has succeeded since, and the link that the thread read is still the link
  -- of the head.
  have hgood := h.good t
  have hknows := hgood.knows
  rw [hpc] at hknows
  have hle := hknows.1.le
  have hsince : s.exchanges = since := by
    apply Wrap.eq_of_mod_eq (W := 2 ^ 32) hle
    . omega
    . rw [← h.tag, hhead]
      exact hknows.1.tag
  have hnext := hknows.2 hsince.symm
  cases fl with
  | nil =>
    have hnil := Chain.isList_nil.1 h.free.isList
    rw [hhead] at hnil
    exact absurd hnil hknows.1.ne
  | cons i fl =>
    have hcons := Chain.isList_cons.1 h.free.isList
    have hi : i = fh.idx := by
      rw [← hcons.1, hhead]
    have hnodup := List.nodup_cons.1 h.free.isList.nodup
    have hown : ∀ j, (s.threads t).Owns j ↔ j ∈ (s.threads t).held := by
      intro j
      unfold Thread.Owns
      rw [hpc]
      exact or_iff_left (fun hslot => nomatch hslot)
    apply h.move (t := t) (u := { s.threads t with pc := .taken fh.idx })
    . rfl
    . rfl
    . refine ⟨?_, fun j hj => h.free.lt j (List.mem_cons_of_mem i hj), h.free.cap⟩
      show Chain.IsList s.pool.nextFree noIdx next fl
      rw [hnext, ← hi]
      exact hcons.2.2
    . exact bump_tag h.tag next
    . intro j
      rw [hown j, List.mem_cons, hi]
      unfold Thread.Owns
      dsimp only [Pc.slot]
      constructor
      . intro hor
        cases hor with
        | inl hor =>
          cases hor with
          | inl hheld => exact Or.inl hheld
          | inr hslot => exact Or.inr (Or.inl (Option.some.inj hslot).symm)
        | inr hmem => exact Or.inr (Or.inr hmem)
      . intro hor
        cases hor with
        | inl hheld => exact Or.inl (Or.inl hheld)
        | inr hor =>
          cases hor with
          | inl heq => exact Or.inl (Or.inr (congrArg some heq.symm))
          | inr hmem => exact Or.inr hmem
    . intro j hj hmem
      cases hj with
      | inl hheld => exact (h.owned t j (Or.inl hheld)).2 (List.mem_cons_of_mem i hmem)
      | inr hslot =>
        have heq : fh.idx = j := Option.some.inj hslot
        rw [← heq, ← hi] at hmem
        exact hnodup.1 hmem
    . constructor
      . intro j hslot hheld
        have heq : fh.idx = j := Option.some.inj hslot
        rw [← heq, ← hi] at hheld
        exact (h.owned t i (Or.inl hheld)).2 List.mem_cons_self
      . trivial
    . intro t' _ hg
      exact ⟨hg.apart, hg.knows.exchanged rfl⟩
    . intro n hn
      unfold Thread.counted at hn ⊢
      rw [hpc] at hn
      exact hn

theorem Inv.pushHead (h : s.Inv fl) {idx : Nat} {fh : TaggedHead} {since : Nat}
    (hpc : (s.threads t).pc = .pushHead idx fh since) (hhead : s.pool.freeHead = fh)
    : ((s.exchange idx).setPc t .pushed).Inv (idx :: fl) := by
  -- An exchange that pushes a slot. The link of the slot is the head whatever happened in between.
  have hgood := h.good t
  have hlink : s.pool.nextFree idx = fh.idx := by
    have hknows := hgood.knows
    rw [hpc] at hknows
    exact hknows
  have hslot : (s.threads t).pc.slot = some idx := by
    rw [hpc]
    rfl
  have hbefore := h.owned t idx (Or.inr hslot)
  have hcap := h.free.cap
  have hown : ∀ j, (s.threads t).Owns j ↔ j ∈ (s.threads t).held ∨ j = idx := by
    intro j
    unfold Thread.Owns
    rw [hslot, Option.some_inj, eq_comm]
  have hafter : ∀ j, Thread.Owns { s.threads t with pc := .pushed } j ↔ j ∈ (s.threads t).held := by
    intro j
    exact or_iff_left (fun hnone => nomatch hnone)
  apply h.move (t := t) (u := { s.threads t with pc := .pushed })
  . rfl
  . rfl
  . refine ⟨?_, ?_, hcap⟩
    . show Chain.IsList s.pool.nextFree noIdx idx (idx :: fl)
      rw [Chain.isList_cons, hlink, ← hhead]
      exact ⟨rfl, by omega, h.free.isList⟩
    . intro j hj
      cases List.mem_cons.1 hj with
      | inl heq =>
        rw [heq]
        exact hbefore.1
      | inr hmem => exact h.free.lt j hmem
  . exact bump_tag h.tag idx
  . intro j
    rw [hafter, hown, List.mem_cons, or_assoc]
  . intro j hj hmem
    rw [hafter] at hj
    cases List.mem_cons.1 hmem with
    | inl heq =>
      rw [heq] at hj
      exact hgood.apart idx hslot hj
    | inr hmem => exact (h.owned t j (Or.inl hj)).2 hmem
  . constructor
    . intro j hnone
      cases hnone
    . trivial
  . intro t' _ hg
    exact ⟨hg.apart, hg.knows.exchanged rfl⟩
  . intro n hn
    unfold Thread.counted at hn ⊢
    rw [hpc] at hn
    exact hn

theorem Inv.storeNext (h : s.Inv fl) {idx : Nat} {fh : TaggedHead} {since : Nat}
    (hpc : (s.threads t).pc = .storeNext idx fh since)
    : ((s.storeLink idx fh.idx).setPc t (.pushHead idx fh since)).Inv fl := by
  have hslot : (s.threads t).pc.slot = some idx := by
    rw [hpc]
    rfl
  have hbefore := h.owned t idx (Or.inr hslot)
  have hother : ∀ i, i ≠ idx → (s.storeLink idx fh.idx).pool.nextFree i = s.pool.nextFree i := by
    intro i hi
    unfold storeLink OrderPool.nextFree
    dsimp only
    rw [OrderPool.modify_storage_of_ne _ _ _ hi]
  have hself : (s.storeLink idx fh.idx).pool.nextFree idx = fh.idx := by
    unfold storeLink OrderPool.nextFree
    dsimp only
    rw [OrderPool.modify_storage_self]
  have hown : ∀ j, Thread.Owns { s.threads t with pc := .pushHead idx fh since } j ↔
      (s.threads t).Owns j := by
    intro j
    unfold Thread.Owns
    rw [hslot]
    rfl
  apply h.move (t := t) (u := { s.threads t with pc := .pushHead idx fh since })
  . rfl
  . rfl
  . refine ⟨?_, h.free.lt, h.free.cap⟩
    apply h.free.isList.congr
    intro i hi
    apply hother
    intro heq
    rw [heq] at hi
    exact hbefore.2 hi
  . exact h.tag
  . intro j
    rw [hown]
  . intro j hj
    exact (h.owned t j ((hown j).1 hj)).2
  . constructor
    . intro j hj
      apply (h.good t).apart j
      rw [hslot]
      exact hj
    . exact hself
  . intro t' ht' hg
    refine ⟨hg.apart, hg.knows.stored rfl hother ?_ ?_⟩
    . intro hne heq
      cases fl with
      | nil => exact hne (Chain.isList_nil.1 h.free.isList)
      | cons i fl =>
        have hi := (Chain.isList_cons.1 h.free.isList).1
        rw [heq] at hi
        rw [hi] at hbefore
        exact hbefore.2 List.mem_cons_self
    . intro hslot'
      exact ht' (h.alone t' t idx (Or.inr hslot') (Or.inr hslot))
  . intro n hn
    unfold Thread.counted at hn ⊢
    rw [hpc] at hn
    exact hn

theorem Pc.Knows.congr {pc : Pc} {p p' : OrderPool} {exchanges : Nat} (h : pc.Knows p exchanges)
    (hhead : p'.freeHead = p.freeHead) (hnext : p'.nextFree = p.nextFree) : pc.Knows p' exchanges := by
  cases pc with
  | loadNext fh since => exact Known.congr h hhead
  | takeHead fh since next =>
    refine ⟨h.1.congr hhead, ?_⟩
    rw [hnext]
    exact h.2
  | pushHead i fh since =>
    show p'.nextFree i = fh.idx
    rw [hnext]
    exact h
  | _ => trivial

theorem Inv.finish (h : s.Inv fl) {size : Nat} {held : Finset Nat}
    (howns : ∀ i, i ∈ held ↔ (s.threads t).Owns i)
    (hsize : ∀ n, s.pool.size = (n + (s.threads t).counted) % 2 ^ 64 → size = (n + held.card) % 2 ^ 64)
    : ((s.setSize size).setThread t { pc := .idle, held := held }).Inv fl := by
  have hown : ∀ i, Thread.Owns { pc := .idle, held := held } i ↔ (s.threads t).Owns i := by
    intro i
    rw [← howns i]
    exact or_iff_left (fun hnone => nomatch hnone)
  apply h.move (t := t) (u := { pc := .idle, held := held })
  . rfl
  . rfl
  . exact ⟨h.free.isList, h.free.lt, h.free.cap⟩
  . exact h.tag
  . intro i
    rw [hown]
  . intro i hi
    exact (h.owned t i ((hown i).1 hi)).2
  . constructor
    . intro i hi
      cases hi
    . trivial
  . intro t' _ hg
    exact ⟨hg.apart, hg.knows.congr rfl rfl⟩
  . exact hsize

theorem Inv.count (h : s.Inv fl) {idx : Nat} (hpc : (s.threads t).pc = .taken idx)
    : ((s.setSize (Wrap.add (2 ^ 64) s.pool.size 1)).setThread t
        { pc := .idle, held := insert idx (s.threads t).held }).Inv fl := by
  have hslot : (s.threads t).pc.slot = some idx := by
    rw [hpc]
    rfl
  have hnot := (h.good t).apart idx hslot
  have hcounted : (s.threads t).counted = (s.threads t).held.card := by
    unfold Thread.counted
    rw [hpc]
    rfl
  apply h.finish
  . intro i
    unfold Thread.Owns
    rw [hslot, Option.some_inj, Finset.mem_insert, or_comm, eq_comm]
  . intro n hn
    rw [hn, hcounted, Wrap.add_mod, Finset.card_insert_of_notMem hnot, Nat.add_assoc]

theorem Inv.uncount (h : s.Inv fl) (hpc : (s.threads t).pc = .pushed)
    : ((s.setSize (Wrap.sub (2 ^ 64) s.pool.size 1)).setPc t .idle).Inv fl := by
  have hcounted : (s.threads t).counted = (s.threads t).held.card + 1 := by
    unfold Thread.counted
    rw [hpc]
    rfl
  apply h.finish
  . intro i
    unfold Thread.Owns
    rw [hpc]
    exact (or_iff_left (fun hnone => nomatch hnone)).symm
  . intro n hn
    rw [hn, hcounted, Wrap.sub_mod_left (by decide) (by omega)]
    rfl

theorem Inv.begin (h : s.Inv fl) {idx : Nat} (hpc : (s.threads t).pc = .idle)
    (hheld : idx ∈ (s.threads t).held)
    : (s.setThread t { pc := .deallocate idx, held := (s.threads t).held.erase idx }).Inv fl := by
  apply h.setThread
  . intro j
    unfold Thread.Owns
    rw [hpc, Finset.mem_erase]
    dsimp only [Pc.slot]
    rw [Option.some_inj]
    by_cases hj : idx = j
    . subst hj
      simp [hheld]
    . simp [hj, Ne.symm hj]
  . constructor
    . intro j hj
      cases hj
      exact Finset.notMem_erase _ _
    . trivial
  . unfold Thread.counted
    rw [hpc]
    exact Finset.card_erase_add_one hheld

theorem Inv.retry (h : s.Inv fl) {idx : Nat} (hslot : (s.threads t).pc.slot = some idx)
    (hcounted : (s.threads t).pc.counted = 1)
    : (s.setPc t (.storeNext idx s.pool.freeHead s.exchanges)).Inv fl := by
  apply h.setPc
  . exact hslot.symm
  . trivial
  . exact hcounted.symm

theorem Inv.advance (h : s.Inv fl) (htimely : Timely s (.advance t)) (hstep : s.advance t = some s')
    : ∃ fl', s'.Inv fl' := by
  unfold SharedPool.advance at hstep
  cases hpc : (s.threads t).pc with
  | idle =>
    rw [hpc] at hstep
    cases hstep
  | allocate =>
    rw [hpc] at hstep
    cases hstep
    exact ⟨fl, h.test (by rw [hpc]; rfl) (by rw [hpc]; rfl)⟩
  | loadNext fh since =>
    have hknows := (h.good t).knows
    rw [hpc] at hstep hknows
    cases hstep
    refine ⟨fl, h.setPc ?_ ?_ ?_⟩
    . rw [hpc]
      rfl
    . exact ⟨hknows, fun _ => rfl⟩
    . rw [hpc]
      rfl
  | takeHead fh since next =>
    unfold Timely at htimely
    dsimp only at htimely
    rw [hpc] at hstep htimely
    dsimp only at hstep
    split at hstep
    . next hhead =>
      cases hstep
      exact ⟨_, h.takeHead hpc hhead htimely⟩
    . cases hstep
      exact ⟨fl, h.test (by rw [hpc]; rfl) (by rw [hpc]; rfl)⟩
  | taken idx =>
    rw [hpc] at hstep
    cases hstep
    exact ⟨fl, h.count hpc⟩
  | null =>
    rw [hpc] at hstep
    cases hstep
    refine ⟨fl, h.setPc ?_ trivial ?_⟩
    . rw [hpc]
      rfl
    . rw [hpc]
      rfl
  | deallocate idx =>
    rw [hpc] at hstep
    cases hstep
    exact ⟨fl, h.retry (by rw [hpc]; rfl) (by rw [hpc]; rfl)⟩
  | storeNext idx fh since =>
    rw [hpc] at hstep
    cases hstep
    exact ⟨fl, h.storeNext hpc⟩
  | pushHead idx fh since =>
    rw [hpc] at hstep
    dsimp only at hstep
    split at hstep
    . next hhead =>
      cases hstep
      exact ⟨_, h.pushHead hpc hhead⟩
    . cases hstep
      exact ⟨fl, h.retry (by rw [hpc]; rfl) (by rw [hpc]; rfl)⟩
  | pushed =>
    rw [hpc] at hstep
    cases hstep
    exact ⟨fl, h.uncount hpc⟩

theorem Inv.step (h : s.Inv fl) {l : Label T} (htimely : Timely s l) (hstep : s.step l = some s')
    : ∃ fl', s'.Inv fl' := by
  cases l with
  | allocate t =>
    unfold SharedPool.step at hstep
    dsimp only at hstep
    split at hstep
    . next hpc =>
      cases hstep
      refine ⟨fl, h.setPc ?_ trivial ?_⟩
      . rw [hpc]
        rfl
      . rw [hpc]
        rfl
    . cases hstep
  | deallocate t idx =>
    unfold SharedPool.step at hstep
    dsimp only at hstep
    split at hstep
    . next hpc =>
      cases hstep
      exact ⟨fl, h.begin hpc.1 hpc.2⟩
    . cases hstep
  | advance t => exact h.advance htimely hstep
  | spurious t =>
    have hspurious : s.spurious t = some s' := hstep
    unfold SharedPool.spurious at hspurious
    split at hspurious
    . next hpc =>
      cases hspurious
      exact ⟨fl, h.test (by rw [hpc]; rfl) (by rw [hpc]; rfl)⟩
    . next hpc =>
      cases hspurious
      exact ⟨fl, h.retry (by rw [hpc]; rfl) (by rw [hpc]; rfl)⟩
    . cases hspurious

end SharedPool

end NebulaXTrader
