import NebulaXTrader.Core.Types
import NebulaXTrader.Lib.Chain

/-!
This module contains the model of `OrderPool`: a fixed array of order slots with a tagged free list
threaded through it. The operations are the ones of a single caller, for whom every exchange of the
list head succeeds.
-/

namespace NebulaXTrader

structure OrderPool where
  storage : Nat → OrderSlot
  capacity : Nat
  freeHead : TaggedHead
  size : Nat

namespace OrderPool

def init (capacity : Nat) : OrderPool where
  storage i := { poolNextFree := if i + 1 < capacity then i + 1 else noIdx }
  capacity := capacity
  freeHead := ⟨0, 0⟩
  size := 0

def allocate (p : OrderPool) : Option (Nat × OrderPool) :=
  let head := p.freeHead.idx
  if head = noIdx then
    none
  else
    let next := (p.storage head).poolNextFree
    some (head, { p with freeHead := p.freeHead.bump next, size := p.size + 1 })

def modify (p : OrderPool) (idx : Nat) (f : OrderSlot → OrderSlot) : OrderPool :=
  { p with storage := Function.update p.storage idx (f (p.storage idx)) }

def deallocate (p : OrderPool) (idx : Nat) : OrderPool :=
  let head := p.freeHead.idx
  { p with
    storage :=
      Function.update p.storage idx { p.storage idx with poolNextFree := head }
    freeHead := p.freeHead.bump idx
    size := p.size - 1 }

def nextFree (p : OrderPool) (i : Nat) : Nat := (p.storage i).poolNextFree

structure Free (p : OrderPool) (fl : List Nat) : Prop where
  isList : Chain.IsList p.nextFree noIdx (p.freeHead.idx) fl
  lt : ∀ i ∈ fl, i < p.capacity
  cap : p.capacity ≤ noIdx

section Modify

variable (p : OrderPool) (idx : Nat) (f : OrderSlot → OrderSlot)

@[simp]
theorem modify_capacity : (p.modify idx f).capacity = p.capacity := rfl

@[simp]
theorem modify_freeHead : (p.modify idx f).freeHead = p.freeHead := rfl

@[simp]
theorem modify_size : (p.modify idx f).size = p.size := rfl

@[simp]
theorem modify_storage_self : (p.modify idx f).storage idx = f (p.storage idx) := by
  simp [modify]

theorem modify_storage_of_ne {i : Nat} (h : i ≠ idx)
    : (p.modify idx f).storage i = p.storage i := by
  simp [modify, h]

theorem modify_storage_field {β : Type} (g : OrderSlot → β) (hg : ∀ s, g (f s) = g s) (i : Nat)
    : g ((p.modify idx f).storage i) = g (p.storage i) := by
  by_cases h : i = idx
  . subst h
    simp [hg]
  . rw [modify_storage_of_ne p idx f h]

end Modify

theorem deallocate_storage_field {β : Type} (p : OrderPool) (idx : Nat) (g : OrderSlot → β)
    (hg : ∀ s n, g { s with poolNextFree := n } = g s) (i : Nat)
    : g ((p.deallocate idx).storage i) = g (p.storage i) := by
  by_cases h : i = idx
  . subst h
    simp [deallocate, hg]
  . simp [deallocate, h]

@[simp]
theorem deallocate_capacity (p : OrderPool) (idx : Nat)
    : (p.deallocate idx).capacity = p.capacity := rfl

theorem Free.init {capacity : Nat} (h0 : 0 < capacity) (h : capacity ≤ noIdx)
    : Free (init capacity) (List.range capacity) := by
  refine ⟨?_, by simp [OrderPool.init], h⟩
  -- the list that starts at slot `k` holds the remaining `n` slots
  have key : ∀ n k, k + n = capacity → 0 < n →
      Chain.IsList (OrderPool.init capacity).nextFree noIdx k (List.range' k n) := by
    intro n
    induction n with
    | zero => omega
    | succ n ih =>
      intro k hk _
      rw [List.range'_succ, Chain.isList_cons]
      refine ⟨rfl, by omega, ?_⟩
      by_cases hn : n = 0
      . subst hn
        have : ¬ k + 1 < capacity := by omega
        simp [nextFree, OrderPool.init, this]
      . have hlt : k + 1 < capacity := by omega
        have : (OrderPool.init capacity).nextFree k = k + 1 := by
          simp [nextFree, OrderPool.init, hlt]
        rw [this]
        exact ih (k + 1) (by omega) (by omega)
  rw [List.range_eq_range']
  exact key capacity 0 (by omega) h0

theorem Free.modify {p : OrderPool} {fl : List Nat} (h : p.Free fl) (idx : Nat)
    (f : OrderSlot → OrderSlot) (hf : ∀ s, (f s).poolNextFree = s.poolNextFree)
    : (p.modify idx f).Free fl := by
  refine ⟨h.isList.congr ?_, h.lt, h.cap⟩
  intro i _
  exact modify_storage_field p idx f (·.poolNextFree) hf i

def takeHead (p : OrderPool) (head : Nat) : OrderPool :=
  { p with freeHead := p.freeHead.bump (p.nextFree head), size := p.size + 1 }

theorem Free.takeHead {p : OrderPool} {i : Nat} {fl : List Nat} (h : p.Free (i :: fl))
    : (p.takeHead i).Free fl := by
  obtain ⟨_, _, hl⟩ := Chain.isList_cons.1 h.isList
  exact ⟨hl, fun j hj => h.lt j (by simp [hj]), h.cap⟩

theorem Free.allocate {p : OrderPool} {fl : List Nat} (h : p.Free fl)
    : p.allocate = fl.head?.map (fun i => (i, p.takeHead i)) := by
  cases fl with
  | nil =>
    have := Chain.isList_nil.1 h.isList
    simp [OrderPool.allocate, this]
  | cons i fl' =>
    obtain ⟨hi, hne, _⟩ := Chain.isList_cons.1 h.isList
    simp [OrderPool.allocate, hi, hne, OrderPool.takeHead, nextFree]

theorem Free.deallocate {p : OrderPool} {fl : List Nat} (h : p.Free fl) {idx : Nat}
    (hidx : idx ∉ fl) (hlt : idx < p.capacity)
    : (p.deallocate idx).Free (idx :: fl) := by
  have hne : idx ≠ noIdx := by
    have := h.cap
    omega
  refine ⟨?_, ?_, h.cap⟩
  . have hn : (p.deallocate idx).nextFree =
        Function.update p.nextFree idx p.freeHead.idx := by
      funext i
      by_cases hi : i = idx
      . subst hi
        simp [OrderPool.deallocate, nextFree]
      . simp [OrderPool.deallocate, nextFree, hi]
    rw [hn]
    exact h.isList.push hidx hne
  . intro i hi
    rw [List.mem_cons] at hi
    cases hi with
    | inl hi => simpa [hi] using hlt
    | inr hi => exact h.lt i hi

end OrderPool

end NebulaXTrader
