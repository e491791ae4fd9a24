import NebulaXTrader.Book.Lemmas.SharedPool
import NebulaXTrader.Lib.Linearization

/-!
This module contains the theorem that the shared pool is linearizable: whatever its threads do at once, its calls return
what the pool of a single caller returns for them in some order.
-/

namespace NebulaXTrader

namespace OrderPool

inductive Call where
  | allocate
  | deallocate (idx : Nat)
  deriving DecidableEq

/--
`slot` is what `allocate` returns, `null` if it has found no slot.
-/
inductive Answer where
  | slot (idx : Nat)
  | null
  | freed
  deriving DecidableEq

def answer (p : OrderPool) (call : Call) : Answer × OrderPool :=
  match call with
  | .allocate =>
    match p.allocate with
    | none => (.null, p)
    | some (idx, p') => (.slot idx, p')
  | .deallocate idx => (.freed, p.deallocate idx)

end OrderPool

namespace SharedPool

open OrderPool (Call Answer answer)
open Linearization

variable {T : Type} [DecidableEq T]

def events (s : SharedPool T) (l : Label T) : List (Event T Call Answer) :=
  match l with
  | .allocate t => [.call t .allocate]
  | .deallocate t idx => [.call t (.deallocate idx)]
  | .advance t =>
    match (s.threads t).pc with
    | .taken idx => [.ret t (.slot idx)]
    | .null => [.ret t .null]
    | .pushed => [.ret t .freed]
    | _ => []
  | .spurious _ => []

/--
An exchange that succeeds is the moment at which a call takes effect, and so is a load that finds no slot.
-/
def Pc.phase (pc : Pc) : Phase Call Answer :=
  match pc with
  | .idle => .idle
  | .allocate | .loadNext _ _ | .takeHead _ _ _ => .pending .allocate
  | .taken idx => .done (.slot idx)
  | .null => .done .null
  | .deallocate idx | .storeNext idx _ _ | .pushHead idx _ _ => .pending (.deallocate idx)
  | .pushed => .done .freed

variable [Fintype T] {s s' : SharedPool T} {fl : List Nat} {t : T} {c : Object T Call Answer OrderPool}

/--
The pool of the single caller has the same free list.
-/
structure Sim (s : SharedPool T) (c : Object T Call Answer OrderPool) (fl : List Nat) : Prop where
  inv : s.Inv fl
  free : c.value.Free fl
  capacity : c.value.capacity = s.pool.capacity
  phase : ∀ t, c.phase t = (s.threads t).pc.phase

omit [DecidableEq T] in
theorem Sim.init {capacity : Nat} (h0 : 0 < capacity) (h : capacity ≤ noIdx)
    : Sim (init T capacity) { phase := fun _ => .idle, value := .init capacity } (List.range capacity) :=
  ⟨.init h0 h, .init h0 h, rfl, fun _ => rfl⟩

theorem Sim.move (h : Sim s c fl) {fl' : List Nat} {a : OrderPool} {u : Thread} (hinv : s'.Inv fl')
    (hthreads : s'.threads = Function.update s.threads t u) (hfree : a.Free fl')
    (hcapacity : a.capacity = s'.pool.capacity) {p : Phase Call Answer} (hp : p = u.pc.phase)
    : Sim s' { phase := Function.update c.phase t p, value := a } fl' := by
  refine ⟨hinv, hfree, hcapacity, ?_⟩
  intro t'
  dsimp only
  rw [hthreads]
  by_cases ht : t' = t
  . rw [ht, Function.update_self, Function.update_self, hp]
  . rw [Function.update_of_ne ht, Function.update_of_ne ht]
    exact h.phase t'

theorem Sim.silent (h : Sim s c fl) {u : Thread} (hinv : s'.Inv fl)
    (hthreads : s'.threads = Function.update s.threads t u) (hcapacity : s'.pool.capacity = s.pool.capacity)
    (hp : (s.threads t).pc.phase = u.pc.phase)
    : Follows answer (fun s c => ∃ fl, Sim s c fl) [] c s' := by
  apply follows_silent
  refine ⟨fl, hinv, h.free, h.capacity.trans hcapacity.symm, ?_⟩
  intro t'
  rw [hthreads]
  by_cases ht : t' = t
  . rw [ht, Function.update_self, ← hp]
    exact h.phase t
  . rw [Function.update_of_ne ht]
    exact h.phase t'

theorem Sim.test (h : Sim s c fl) (hpc : (s.threads t).pc.phase = .pending .allocate)
    (hslot : (s.threads t).pc.slot = none) (hcounted : (s.threads t).pc.counted = 0)
    : Follows answer (fun s c => ∃ fl, Sim s c fl) [] c (s.test t) := by
  have hinv := h.inv.test hslot hcounted
  by_cases hnone : s.pool.freeHead.idx = noIdx
  . have htest : s.test t = s.setPc t .null := if_pos hnone
    have hnil : fl = [] := by
      have hlist := h.inv.free.isList
      rw [hnone] at hlist
      exact hlist.eq_nil
    have happly : answer c.value .allocate = (.null, c.value) := by
      unfold answer
      dsimp only
      rw [h.free.allocate, hnil]
      rfl
    rw [htest] at hinv ⊢
    apply follows_commit ((h.phase t).trans hpc) happly
    exact ⟨fl, h.move hinv rfl h.free h.capacity rfl⟩
  . have htest : s.test t = s.setPc t (.loadNext s.pool.freeHead s.exchanges) := if_neg hnone
    rw [htest] at hinv ⊢
    exact h.silent hinv rfl rfl hpc

theorem Sim.takeHead (h : Sim s c fl) {fh : TaggedHead} {since next : Nat}
    (hpc : (s.threads t).pc = .takeHead fh since next) (hhead : s.pool.freeHead = fh)
    (htimely : s.exchanges < since + 2 ^ 32)
    : Follows answer (fun s c => ∃ fl, Sim s c fl) [] c ((s.exchange next).setPc t (.taken fh.idx)) := by
  have hinv := h.inv.takeHead hpc hhead htimely
  have hknows := (h.inv.good t).knows
  rw [hpc] at hknows
  cases fl with
  | nil =>
    have hnil := Chain.isList_nil.1 h.inv.free.isList
    rw [hhead] at hnil
    exact absurd hnil hknows.1.ne
  | cons i fl =>
    have hi : i = fh.idx := by
      rw [← (Chain.isList_cons.1 h.inv.free.isList).1, hhead]
    subst hi
    have hpending : c.phase t = .pending .allocate := by
      rw [h.phase, hpc]
      rfl
    have happly : answer c.value .allocate = (.slot fh.idx, c.value.takeHead fh.idx) := by
      unfold answer
      dsimp only
      rw [h.free.allocate]
      rfl
    apply follows_commit hpending happly
    exact ⟨fl, h.move hinv rfl h.free.takeHead h.capacity rfl⟩

theorem Sim.pushHead (h : Sim s c fl) {idx : Nat} {fh : TaggedHead} {since : Nat}
    (hpc : (s.threads t).pc = .pushHead idx fh since) (hhead : s.pool.freeHead = fh)
    : Follows answer (fun s c => ∃ fl, Sim s c fl) [] c ((s.exchange idx).setPc t .pushed) := by
  have hinv := h.inv.pushHead hpc hhead
  have hslot : (s.threads t).pc.slot = some idx := by
    rw [hpc]
    rfl
  have howned := h.inv.owned t idx (Or.inr hslot)
  have hpending : c.phase t = .pending (.deallocate idx) := by
    rw [h.phase, hpc]
    rfl
  have hlt : idx < c.value.capacity := by
    rw [h.capacity]
    exact howned.1
  apply follows_commit hpending rfl
  exact ⟨idx :: fl, h.move hinv rfl (h.free.deallocate howned.2 hlt) h.capacity rfl⟩

theorem Sim.returns (h : Sim s c fl) {a : Answer} (hpc : (s.threads t).pc.phase = .done a) {u : Thread}
    (hinv : s'.Inv fl) (hthreads : s'.threads = Function.update s.threads t u)
    (hcapacity : s'.pool.capacity = s.pool.capacity) (hidle : u.pc = .idle)
    : Follows answer (fun s c => ∃ fl, Sim s c fl) [.ret t a] c s' := by
  apply follows_ret ((h.phase t).trans hpc)
  refine ⟨fl, h.move hinv hthreads h.free (h.capacity.trans hcapacity.symm) ?_⟩
  rw [hidle]
  rfl

theorem Sim.count (h : Sim s c fl) {a : Answer} (hpc : (s.threads t).pc.phase = .done a) {size : Nat}
    {held : Finset Nat} (hinv : ((s.setSize size).setThread t { pc := .idle, held := held }).Inv fl)
    : Follows answer (fun s c => ∃ fl, Sim s c fl) [.ret t a] c
        ((s.setSize size).setThread t { pc := .idle, held := held }) :=
  h.returns hpc hinv rfl rfl rfl

theorem Sim.calls (h : Sim s c fl) (hpc : (s.threads t).pc = .idle) {call : Call} {u : Thread} (hinv : s'.Inv fl)
    (hthreads : s'.threads = Function.update s.threads t u) (hcapacity : s'.pool.capacity = s.pool.capacity)
    (hp : u.pc.phase = .pending call)
    : Follows answer (fun s c => ∃ fl, Sim s c fl) [.call t call] c s' := by
  apply follows_call
  . rw [h.phase, hpc]
    rfl
  . exact ⟨fl, h.move hinv hthreads h.free (h.capacity.trans hcapacity.symm) hp.symm⟩

theorem Sim.retry (h : Sim s c fl) {idx : Nat} (hpc : (s.threads t).pc.phase = .pending (.deallocate idx))
    (hslot : (s.threads t).pc.slot = some idx) (hcounted : (s.threads t).pc.counted = 1)
    : Follows answer (fun s c => ∃ fl, Sim s c fl) [] c
        (s.setPc t (.storeNext idx s.pool.freeHead s.exchanges)) :=
  h.silent (h.inv.retry hslot hcounted) rfl rfl hpc

theorem Sim.advance (h : Sim s c fl) (htimely : Timely s (.advance t)) (hstep : s.advance t = some s')
    : Follows answer (fun s c => ∃ fl, Sim s c fl) (events s (.advance t)) c s' := by
  unfold SharedPool.advance at hstep
  unfold events
  dsimp only
  cases hpc : (s.threads t).pc with
  | idle =>
    rw [hpc] at hstep
    cases hstep
  | allocate =>
    rw [hpc] at hstep
    cases hstep
    exact h.test (by rw [hpc]; rfl) (by rw [hpc]; rfl) (by rw [hpc]; rfl)
  | loadNext fh since =>
    have hknows := (h.inv.good t).knows
    rw [hpc] at hstep hknows
    cases hstep
    have hinv : (s.setPc t (.takeHead fh since (s.pool.nextFree fh.idx))).Inv fl := by
      apply h.inv.setPc
      . rw [hpc]
        rfl
      . exact ⟨hknows, fun _ => rfl⟩
      . rw [hpc]
        rfl
    exact h.silent hinv rfl rfl (by rw [hpc]; rfl)
  | takeHead fh since next =>
    unfold Timely at htimely
    dsimp only at htimely
    rw [hpc] at hstep htimely
    dsimp only at hstep
    split at hstep
    . next hhead =>
      cases hstep
      exact h.takeHead hpc hhead htimely
    . cases hstep
      exact h.test (by rw [hpc]; rfl) (by rw [hpc]; rfl) (by rw [hpc]; rfl)
  | taken idx =>
    rw [hpc] at hstep
    cases hstep
    exact h.count (by rw [hpc]; rfl) (h.inv.count hpc)
  | null =>
    rw [hpc] at hstep
    cases hstep
    have hinv : (s.setPc t .idle).Inv fl := by
      apply h.inv.setPc
      . rw [hpc]
        rfl
      . trivial
      . rw [hpc]
        rfl
    exact h.returns (by rw [hpc]; rfl) hinv rfl rfl rfl
  | deallocate idx =>
    rw [hpc] at hstep
    cases hstep
    exact h.retry (by rw [hpc]; rfl) (by rw [hpc]; rfl) (by rw [hpc]; rfl)
  | storeNext idx fh since =>
    rw [hpc] at hstep
    cases hstep
    exact h.silent (h.inv.storeNext hpc) rfl rfl (by rw [hpc]; rfl)
  | pushHead idx fh since =>
    rw [hpc] at hstep
    dsimp only at hstep
    split at hstep
    . next hhead =>
      cases hstep
      exact h.pushHead hpc hhead
    . cases hstep
      exact h.retry (by rw [hpc]; rfl) (by rw [hpc]; rfl) (by rw [hpc]; rfl)
  | pushed =>
    rw [hpc] at hstep
    cases hstep
    exact h.count (by rw [hpc]; rfl) (h.inv.uncount hpc)

theorem Sim.spurious (h : Sim s c fl) (hstep : s.spurious t = some s')
    : Follows answer (fun s c => ∃ fl, Sim s c fl) [] c s' := by
  unfold SharedPool.spurious at hstep
  cases hpc : (s.threads t).pc with
  | takeHead fh since next =>
    rw [hpc] at hstep
    cases hstep
    exact h.test (by rw [hpc]; rfl) (by rw [hpc]; rfl) (by rw [hpc]; rfl)
  | pushHead idx fh since =>
    rw [hpc] at hstep
    cases hstep
    exact h.retry (by rw [hpc]; rfl) (by rw [hpc]; rfl) (by rw [hpc]; rfl)
  | _ =>
    rw [hpc] at hstep
    cases hstep

theorem Sim.step (h : Sim s c fl) {l : Label T} (htimely : Timely s l) (hstep : s.step l = some s')
    : Follows answer (fun s c => ∃ fl, Sim s c fl) (events s l) c s' := by
  cases l with
  | allocate t =>
    unfold SharedPool.step at hstep
    dsimp only at hstep
    split at hstep
    . next hpc =>
      cases hstep
      have hinv : (s.setPc t .allocate).Inv fl := by
        apply h.inv.setPc
        . rw [hpc]
          rfl
        . trivial
        . rw [hpc]
          rfl
      exact h.calls hpc hinv rfl rfl rfl
    . cases hstep
  | deallocate t idx =>
    unfold SharedPool.step at hstep
    dsimp only at hstep
    split at hstep
    . next hpc =>
      cases hstep
      exact h.calls hpc.1 (h.inv.begin hpc.1 hpc.2) rfl rfl rfl
    . cases hstep
  | advance t => exact h.advance htimely hstep
  | spurious t => exact h.spurious hstep

/--
The threads cannot tell the shared pool from one pool whose calls are made one after the other, as long as each exchange
comes less than `2 ^ 32` exchanges after the load that it relies on.
-/
theorem linearizable {capacity : Nat} (h0 : 0 < capacity) (h : capacity ≤ noIdx) {as : List (Label T)}
    (htimely : Run.Along SharedPool.step Timely (init T capacity) as)
    (hrun : Run.exec SharedPool.step (init T capacity) as = some s)
    : Linearizable answer (.init capacity) (history SharedPool.step events (init T capacity) as) := by
  have hfollows : ∀ (s : SharedPool T) c l s', (∃ fl, Sim s c fl) → Timely s l → SharedPool.step s l = some s' →
      Follows answer (fun s c => ∃ fl, Sim s c fl) (events s l) c s' := by
    intro s c l s' hsim hgood hstep
    obtain ⟨fl, hsim⟩ := hsim
    exact hsim.step hgood hstep
  exact linearizable_of_follows hfollows ⟨_, Sim.init h0 h⟩ htimely hrun

/--
Both threads have loaded the head when the first one takes it, so that the exchange of the second one fails. One slot is
given back before the second thread goes on.
-/
theorem linearizable_contended
    : Linearizable answer (.init 2)
        [.call true .allocate, .call false .allocate, .ret true (.slot 0), .call true (.deallocate 0),
          .ret true .freed, .ret false (.slot 0)] := by
  let as : List (Label Bool) := [.allocate true, .advance true, .advance true, .allocate false,
    .advance false, .advance false, .advance true, .advance true, .advance false, .deallocate true 0, .advance true,
    .advance true, .advance true, .advance true, .advance false, .advance false, .advance false, .advance false,
    .advance false]
  have hsome : (Run.exec SharedPool.step (init Bool 2) as).isSome := by decide +kernel
  have hhistory : history SharedPool.step events (init Bool 2) as =
      [.call true .allocate, .call false .allocate, .ret true (.slot 0), .call true (.deallocate 0),
        .ret true .freed, .ret false (.slot 0)] := by
    decide +kernel
  obtain ⟨s, hrun⟩ := Option.isSome_iff_exists.1 hsome
  rw [← hhistory]
  exact linearizable (by decide) (by decide) (by decide +kernel) hrun

end SharedPool

end NebulaXTrader
