import NebulaXTrader.Book.Lemmas.SharedMapSteps

/-!
This module contains the theorem that the shared map is a map for threads that use references of their own, as
long as every step is careful.
-/

namespace NebulaXTrader

namespace SharedMap

variable {T : Type} {owner : Nat → T} {s s' : SharedMap T} {fl : List Nat} {ch : Nat → List Nat}
  {own : Nat → Place T} {t : T} {ref order : Nat}

def Placed (s : SharedMap T) (fl : List Nat) (i : Nat) : Prop :=
  (i ∈ fl ∧ ∀ b, i ∉ s.map.chain b) ∨ (i ∉ fl ∧ ∃! b, i ∈ s.map.chain b)

def Quiet (s : SharedMap T) : Prop := ∀ t, s.threads t = .idle

/--
What the threads rely on. A call of `find` that runs alone returns, unless a bucket waits for its copy.
-/
structure Sound [DecidableEq T] (owner : Nat → T) (capacity : Nat) (s : SharedMap T) : Prop where
  answer : ∀ t ref o, s.threads t = .find ref (.found o) → o = s.live.lookup ref
  returns : ∀ t ref, s.threads t = .idle → owner ref = t → s.map.state (s.map.hash ref) ≠ .treeifying →
    ∃ n, Run.exec (step owner) s (.find t ref :: List.replicate n (.advance t)) =
      some (s.setPc t (.find ref (.found (s.live.lookup ref))))
  erased : ∀ ref, s.live.lookup ref = none → s.map.overflow ref = none ∧
    ∀ b, s.map.state b ≠ .treeified → ∀ i ∈ s.map.chain b, (s.map.nodes i).orderRef ≠ ref
  placed : s.Quiet → ∃ fl, Chain.IsList s.map.next noIdx s.map.freeHead.idx fl ∧
    (∀ b, Chain.IsList s.map.next noIdx (s.map.buckets b) (s.map.chain b)) ∧
    ∀ i < capacity, s.Placed fl i
  size : s.Quiet → s.map.size = s.live.keys.card

section

instance : Decidable s.Room := by
  unfold Room
  infer_instance

instance : Decidable (s.Moved ref) := by
  unfold Moved
  infer_instance

instance {idx : Nat} : Decidable (s.Genuine ref idx) := by
  unfold Genuine
  infer_instance

instance (pc : InsertPc) : Decidable (pc.Careful s ref) := by
  unfold InsertPc.Careful
  split <;> infer_instance

instance (pc : FindPc) : Decidable (pc.Careful s ref) := by
  unfold FindPc.Careful
  split <;> infer_instance

instance (pc : ErasePc) : Decidable (pc.Careful s ref) := by
  unfold ErasePc.Careful
  split <;> infer_instance

instance (s : SharedMap T) (l : Label T) : Decidable (s.Careful l) := by
  unfold Careful
  split
  . split <;> infer_instance
  . split <;> infer_instance
  . infer_instance

end

section

variable [Fintype T]

theorem Inv.init {capacity : Nat} (h0 : 0 < capacity) (h : capacity ≤ noIdx)
    : (init T capacity).Inv owner (List.range capacity) (fun _ => []) (fun _ => .free) := by
  have hwf := OrderMap.Wf.init h0 h
  constructor
  . refine ⟨h, hwf.free, ?_, ?_, ?_, ?_⟩
    . exact fun _ => Chain.isList_nil.2 rfl
    . exact fun _ _ hi => absurd hi List.not_mem_nil
    . exact fun _ _ hi => absurd hi List.not_mem_nil
    . exact fun _ _ hi => absurd hi List.not_mem_nil
  . intro i
    rw [List.mem_range]
    exact (and_iff_left rfl).symm
  . intro b i
    refine iff_of_false List.not_mem_nil ?_
    intro hplace
    cases hplace.2
  . intro t i
    constructor
    . intro hs
      cases hs
    . intro hplace
      cases hplace.2
  . rfl
  . intro t ref hk
    cases hk
  . intro ref
    apply Or.inl
    have hview : (SharedMap.init T capacity).view owner ref = none := by
      unfold view
      exact ite_self _
    rw [hview]
    refine ⟨(fun heq => nomatch heq), rfl, ?_⟩
    exact fun _ hi => absurd hi.1 List.not_mem_nil
  . exact fun _ => trivial
  . intro t t' ref ref' hm
    cases hm.2
  . have hzero : ∑ t, ((SharedMap.init T capacity).threads t).role.pending = 0 := by
      apply Finset.sum_eq_zero
      intro t _
      rfl
    rw [hzero]
    rfl
  . exact Nat.two_pow_pos 64
  . exact Nat.zero_le capacity

theorem Inv.answer (h : s.Inv owner fl ch own) {o : Option Nat} (hpc : s.threads t = .find ref (.found o))
    : o = s.live.lookup ref := by
  have hknows := h.knows t
  rw [hpc] at hknows
  exact hknows

theorem Inv.absent (h : s.Inv owner fl ch own) (hlive : s.live.lookup ref = none)
    : s.map.overflow ref = none ∧
        ∀ b, s.map.state b ≠ .treeified → ∀ i ∈ s.map.chain b, (s.map.nodes i).orderRef ≠ ref := by
  have hview : s.view owner ref = none := by
    unfold view
    rw [hlive, ite_self]
  have hstored := h.stored ref
  rw [hview] at hstored
  constructor
  . exact hstored.overflow hstored.moved_of_none
  . intro b hb i hi href
    rw [h.chain_eq] at hi
    have hhash := h.layout.hashed b i hi
    rw [href] at hhash
    rw [← hhash] at hb hi
    exact hstored.moved_of_none.resolve_left hb i ⟨hi, href⟩

theorem Inv.placed (h : s.Inv owner fl ch own) (hquiet : s.Quiet) {i : Nat} (hi : i < s.map.capacity)
    : s.Placed fl i := by
  have hchain : ∀ b, i ∈ s.map.chain b ↔ own i = .chain b := by
    intro b
    rw [h.chain_eq, h.chain, and_iff_right hi]
  cases hplace : own i with
  | free =>
    apply Or.inl
    refine ⟨(h.free i).2 ⟨hi, hplace⟩, ?_⟩
    intro b hb
    rw [hchain, hplace] at hb
    cases hb
  | chain b =>
    apply Or.inr
    constructor
    . intro hfree
      have hf := ((h.free i).1 hfree).2
      rw [hplace] at hf
      cases hf
    . refine ⟨b, (hchain b).2 hplace, ?_⟩
      intro b' hb'
      rw [hchain, hplace] at hb'
      cases hb'
      rfl
  | thread t =>
    have hslot := (h.slot t i).2 ⟨hi, hplace⟩
    rw [hquiet t] at hslot
    cases hslot

theorem Inv.size_eq (h : s.Inv owner fl ch own) (hquiet : s.Quiet) : s.map.size = s.live.keys.card := by
  have hzero : ∑ t, (s.threads t).role.pending = 0 := by
    apply Finset.sum_eq_zero
    intro t _
    rw [hquiet t]
    rfl
  have hsize := h.size
  have hcard := h.card
  have hcap : s.map.capacity ≤ 4294967295 := h.layout.cap
  rw [hzero, Nat.add_zero, Nat.mod_eq_of_lt h.sizeLt, Nat.mod_eq_of_lt] at hsize
  . exact hsize
  . omega

end

variable [DecidableEq T]

theorem setPc_setPc (s : SharedMap T) (t : T) (pc pc' : Pc) : (s.setPc t pc).setPc t pc' = s.setPc t pc' := by
  unfold setPc
  rw [Function.update_idem]

@[simp]
theorem setPc_map (s : SharedMap T) (t : T) (pc : Pc) : (s.setPc t pc).map = s.map := rfl

omit [DecidableEq T] in
@[simp]
theorem setMap_map (s : SharedMap T) (m : OrderMap) : (s.setMap m).map = m := rfl

omit [DecidableEq T] in
@[simp]
theorem dropLive_map (s : SharedMap T) (ref : Nat) : (s.dropLive ref).map = s.map := rfl

theorem stepFind_setPc (s : SharedMap T) (t : T) (ref : Nat) (pc : Pc) (pc' : FindPc)
    : (s.setPc t pc).stepFind t ref pc' = s.stepFind t ref pc' := by
  cases pc' with
  | _ =>
    unfold stepFind
    simp only [setPc_setPc, setPc_map]

theorem advance_find (s : SharedMap T) (t : T) (ref : Nat) (pc : FindPc)
    : (s.setPc t (.find ref pc)).step owner (.advance t) = s.stepFind t ref pc := by
  show (s.setPc t (.find ref pc)).advance t = _
  unfold advance
  have hpc : (s.setPc t (.find ref pc)).threads t = .find ref pc := Function.update_self _ _ _
  rw [hpc]
  exact stepFind_setPc s t ref _ pc

/--
The thread arrives at its answer if no other one takes a step.
-/
def Finds (owner : Nat → T) (s : SharedMap T) (t : T) (ref : Nat) (pc : FindPc) (o : Option Nat) : Prop :=
  ∃ n, Run.exec (step owner) (s.setPc t (.find ref pc)) (List.replicate n (.advance t)) =
    some (s.setPc t (.find ref (.found o)))

theorem Finds.found (owner : Nat → T) (s : SharedMap T) (t : T) (ref : Nat) (o : Option Nat)
    : s.Finds owner t ref (.found o) o := ⟨0, rfl⟩

theorem Finds.step {pc : FindPc} (pc' : FindPc) {o : Option Nat}
    (hstep : s.stepFind t ref pc = some (s.setPc t (.find ref pc'))) (h : s.Finds owner t ref pc' o)
    : s.Finds owner t ref pc o := by
  cases h with
  | intro n hn =>
    refine ⟨n + 1, ?_⟩
    rw [List.replicate_succ, Run.exec, advance_find, hstep]
    exact hn

theorem Finds.walk {l : List Nat} {idx : Nat} {o : Option Nat}
    (hlist : Chain.IsList s.map.next noIdx idx l) (hne : idx ≠ noIdx)
    (hbucket : ∀ i ∈ l, (s.map.nodes i).bucket = s.map.hash ref)
    (hsome : ∀ i ∈ l, (s.map.nodes i).orderRef = ref → o = some (s.map.nodes i).order)
    (hnone : (∀ i ∈ l, (s.map.nodes i).orderRef ≠ ref) → o = none)
    : s.Finds owner t ref (.loadBucket idx) o := by
  induction l generalizing idx with
  | nil => exact absurd (Chain.isList_nil.1 hlist) hne
  | cons i l ih =>
    have hcons := Chain.isList_cons.1 hlist
    have hi : idx = i := hcons.1
    subst hi
    have hnot : ¬ (s.map.nodes idx).bucket ≠ s.map.hash ref := fun hb => hb (hbucket idx List.mem_cons_self)
    apply Finds.step (.loadRef idx)
    . exact if_neg hnot
    by_cases href : (s.map.nodes idx).orderRef = ref
    . apply Finds.step (.loadOrder idx)
      . exact if_pos href
      rw [hsome idx List.mem_cons_self href]
      apply Finds.step (.found _) rfl
      exact .found owner s t ref _
    . apply Finds.step (.loadNext idx)
      . exact if_neg href
      by_cases hend : s.map.next idx = noIdx
      . have hnil : l = [] := by
          have hrest := hcons.2.2
          rw [hend] at hrest
          exact hrest.eq_nil
        have ho : o = none := by
          apply hnone
          intro j hj
          rw [hnil, List.mem_singleton] at hj
          rw [hj]
          exact href
        rw [ho]
        apply Finds.step (.found none)
        . exact if_pos hend
        exact .found owner s t ref none
      . apply Finds.step (.loadBucket (s.map.next idx))
        . exact if_neg hend
        apply ih hcons.2.2 hend
        . exact fun j hj => hbucket j (List.mem_cons_of_mem idx hj)
        . exact fun j hj => hsome j (List.mem_cons_of_mem idx hj)
        . intro hrest
          apply hnone
          intro j hj
          cases List.mem_cons.1 hj with
          | inl heq =>
            rw [heq]
            exact href
          | inr hmem => exact hrest j hmem

@[simp]
theorem testFree_capacity (s : SharedMap T) (t : T) (ref order : Nat)
    : (s.testFree t ref order).map.capacity = s.map.capacity := by
  unfold testFree
  split
  . rfl
  . rfl

@[simp]
theorem stepFree_capacity (s : SharedMap T) (t : T) (idx : Nat) (inside : FreePc → Pc) (after : Pc)
    (pc : FreePc) : (s.stepFree t idx inside after pc).map.capacity = s.map.capacity := by
  unfold stepFree
  split
  . rfl
  . rfl
  . split
    . rfl
    . rfl

theorem stepInsert_capacity {pc : InsertPc} (hstep : s.stepInsert t ref order pc = some s')
    : s'.map.capacity = s.map.capacity := by
  unfold stepInsert at hstep
  dsimp only at hstep
  split at hstep
  all_goals try split at hstep
  all_goals cases hstep
  all_goals first
    | rfl
    | simp

theorem stepFind_capacity {pc : FindPc} (hstep : s.stepFind t ref pc = some s')
    : s'.map.capacity = s.map.capacity := by
  unfold stepFind at hstep
  dsimp only at hstep
  split at hstep
  all_goals try split at hstep
  all_goals cases hstep
  all_goals rfl

theorem stepErase_capacity {pc : ErasePc} (hstep : s.stepErase t ref pc = some s')
    : s'.map.capacity = s.map.capacity := by
  cases pc with
  | locked =>
    dsimp only [stepErase] at hstep
    split at hstep
    . cases hstep
      rw [setPc_map, dropLive_map, setMap_map, OrderMap.setSize_capacity, OrderMap.setOverflow_capacity]
    . cases hstep
      rw [setPc_map, dropLive_map]
  | subSize =>
    cases hstep
    rw [setPc_map, dropLive_map, setMap_map, OrderMap.setSize_capacity]
  | _ =>
    unfold stepErase at hstep
    dsimp only at hstep
    try split at hstep
    all_goals cases hstep
    all_goals first
      | rfl
      | simp

theorem step_capacity {l : Label T} (hstep : s.step owner l = some s') : s'.map.capacity = s.map.capacity := by
  cases l with
  | advance t =>
    have hadvance : s.advance t = some s' := hstep
    unfold advance at hadvance
    split at hadvance
    . cases hadvance
    . exact stepInsert_capacity hadvance
    . exact stepFind_capacity hadvance
    . exact stepErase_capacity hadvance
  | spurious t =>
    have hspurious : s.spurious t = some s' := hstep
    unfold spurious at hspurious
    split at hspurious
    all_goals cases hspurious
    all_goals first
      | rfl
      | simp
  | _ =>
    unfold SharedMap.step at hstep
    dsimp only at hstep
    split at hstep
    . cases hstep
      rfl
    . cases hstep

variable [Fintype T]

theorem Inv.returns (h : s.Inv owner fl ch own) (hpc : s.threads t = .idle) (ht : owner ref = t)
    (hstate : s.map.state (s.map.hash ref) ≠ .treeifying)
    : ∃ n, Run.exec (SharedMap.step owner) s (.find t ref :: List.replicate n (.advance t)) =
        some (s.setPc t (.find ref (.found (s.live.lookup ref)))) := by
  have hbegin : s.step owner (.find t ref) = some (s.setPc t (.find ref .loadState)) := if_pos ⟨hpc, ht⟩
  have hstored := h.view_idle hpc ht
  have hfinds : s.Finds owner t ref .loadState (s.live.lookup ref) := by
    by_cases hchain : s.map.state (s.map.hash ref) = .chain
    . have hchained := hstored.chained hchain
      apply Finds.step .loadHead
      . exact if_neg (not_not.2 hchain)
      by_cases hnil : s.map.buckets (s.map.hash ref) = noIdx
      . rw [hchained.eq_none (h.layout.chained_none_of_nil hnil)]
        apply Finds.step (.found none)
        . exact if_pos hnil
        exact .found owner s t ref none
      . apply Finds.step (.loadBucket _)
        . exact if_neg hnil
        apply Finds.walk (h.layout.chains _) hnil (h.layout.bucket _)
        . exact fun i hi href => h.layout.chained_eq hchained ⟨hi, href⟩
        . intro hnone
          exact hchained.eq_none (fun i hi => hnone i hi.1 hi.2)
    . have htreeified : s.map.state (s.map.hash ref) = .treeified := by
        cases hs : s.map.state (s.map.hash ref) with
        | chain => exact absurd hs hchain
        | treeifying => exact absurd hs hstate
        | treeified => rfl
      apply Finds.step .locked
      . exact if_pos hchain
      apply Finds.step (.found _) rfl
      rw [hstored.overflow (Or.inl htreeified)]
      exact .found owner s t ref _
  cases hfinds with
  | intro n hn =>
    refine ⟨n, ?_⟩
    rw [Run.exec, hbegin]
    exact hn

theorem Inv.sound (h : s.Inv owner fl ch own) : s.Sound owner s.map.capacity := by
  constructor
  . exact fun _ _ _ hpc => h.answer hpc
  . exact fun _ _ hpc ht hstate => h.returns hpc ht hstate
  . exact fun _ hlive => h.absent hlive
  . intro hquiet
    refine ⟨fl, h.layout.free, ?_, fun _ hi => h.placed hquiet hi⟩
    intro b
    rw [h.chain_eq]
    exact h.layout.chains b
  . exact h.size_eq

theorem disjoint_owners {capacity : Nat} (h0 : 2 ≤ capacity) (h : capacity ≤ 2 ^ 31) {as : List (Label T)}
    (hcareful : Run.Along (SharedMap.step owner) Careful (init T capacity) as)
    (hrun : Run.exec (SharedMap.step owner) (init T capacity) as = some s) : s.Sound owner capacity := by
  have hcap : s.map.capacity = capacity := by
    apply Run.exec_keeps (p := fun s => s.map.capacity = capacity) _ rfl hrun
    intro s l s' hs hstep
    rw [step_capacity hstep]
    exact hs
  have hinit : ∃ fl ch own, (SharedMap.init T capacity).Inv owner fl ch own := ⟨_, _, _, .init (Nat.zero_lt_of_lt h0) (OrderMap.le_noIdx h)⟩
  have hinv : ∃ fl ch own, s.Inv owner fl ch own := by
    apply Run.exec_inv (p := fun s => ∃ fl ch own, s.Inv owner fl ch own) _ hinit hcareful hrun
    intro s l s' hs hgood hstep
    cases hs with
    | intro fl hs =>
      cases hs with
      | intro ch hs =>
        cases hs with
        | intro own hs => exact hs.step hgood hstep
  cases hinv with
  | intro fl hinv =>
    cases hinv with
    | intro ch hinv =>
      cases hinv with
      | intro own hinv =>
        rw [← hcap]
        exact hinv.sound

theorem disjoint_owners_interleaved
    : let alone := fun (t : Bool) (n : Nat) => List.replicate n (Label.advance t)
      let both := fun (n : Nat) => (List.replicate n [Label.advance false, .advance true]).flatten
      let as := [.insert false 2 20, .insert true 10 100] ++ both 16 ++ alone true 2 ++
        [.erase true 10, .find false 2] ++ both 5 ++ alone true 5 ++ alone false 3
      ∃ s, Run.exec (SharedMap.step (fun ref => ref == 10)) (init Bool 4) as = some s ∧
        s.Sound (fun ref => ref == 10) 4 := by
  -- The two references have the same bucket, and the calls of the two threads overlap.
  intro alone both as
  cases hrun : Run.exec (SharedMap.step (fun ref => ref == 10)) (init Bool 4) as with
  | none =>
    have hsome : (Run.exec (SharedMap.step (fun ref => ref == 10)) (init Bool 4) as).isSome := by
      decide +kernel
    rw [hrun] at hsome
    cases hsome
  | some s => exact ⟨s, rfl, disjoint_owners (by decide) (by decide) (by decide +kernel) hrun⟩

theorem not_disjoint_owners
    : ¬ ∀ (as : List (Label Bool)) (s : SharedMap Bool),
        Run.exec (SharedMap.step (fun ref => ref == 10)) (init Bool 4) as = some s →
          s.Sound (fun ref => ref == 10) 4 := by
  -- The erase of the head and the one of the node after it overlap. The first one stores the link that it
  -- loaded before the second one took its node off, so the last node of the chain is lost.
  intro h
  let alone := fun (t : Bool) (n : Nat) => List.replicate n (Label.advance t)
  let as := [.insert false 2 20] ++ alone false 16 ++ [.insert false 5 50] ++ alone false 16 ++
    [.insert true 10 100] ++ alone true 16 ++ [.erase true 10] ++ alone true 4 ++ [.erase false 5] ++
    alone false 13 ++ alone true 6 ++ [.find false 2] ++ alone false 8
  have hlost : (Run.exec (SharedMap.step (fun ref => ref == 10)) (init Bool 4) as).any
      (fun s => s.threads false = .find 2 (.found none) ∧ s.live.lookup 2 = some 20) = true := by
    decide +kernel
  cases hrun : Run.exec (SharedMap.step (fun ref => ref == 10)) (init Bool 4) as with
  | none =>
    rw [hrun] at hlost
    cases hlost
  | some s =>
    rw [hrun] at hlost
    have hend : s.threads false = .find 2 (.found none) ∧ s.live.lookup 2 = some 20 := of_decide_eq_true hlost
    have hanswer := (h as s hrun).answer false 2 none hend.1
    rw [hend.2] at hanswer
    cases hanswer

end SharedMap

end NebulaXTrader
